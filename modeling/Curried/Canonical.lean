import Curried.Scopes
import Curried.Term

namespace Curried

inductive Construct where
  | noParameters
  | repeatedParameter (name : String)
  | noArguments
  | literal (value : Int64)
  | canonicalFreeName (name : String)
deriving DecidableEq

def Construct.describe : Construct → String
  | noParameters => "lambda with no parameters"
  | repeatedParameter name => "lambda repeating parameter '" ++ name ++ "'"
  | noArguments => "call with no arguments"
  | literal value => "integer literal " ++ Text.Decimal.ofInt value.toInt
  | canonicalFreeName name =>
    "free name '" ++ name ++ "' that clashes with canonical identifier names"

inductive Violation where
  | dangling (x : Ident)
  | emptyName
  | notIdentifier (name : String)
  | captured (name : String)
  | rebound (x : Ident)
deriving DecidableEq

def Violation.describe : Violation → String
  | dangling x => x.name ++ " is not bound by an enclosing abstraction"
  | emptyName => "empty free name"
  | notIdentifier name => "free name '" ++ name ++ "' is not a host identifier"
  | captured name => "free name '" ++ name ++ "' would be captured by its binder"
  | rebound x => x.name ++ " is bound by more than one abstraction"

inductive CanonicalError where
  | unsupported (construct : Construct)
  | scope (e : ScopeError)
  | illFormed (violation : Violation)
deriving DecidableEq

def CanonicalError.message : CanonicalError → String
  | unsupported construct => "Structural error: unsupported " ++ construct.describe
  | scope e => e.message
  | illFormed violation => "Invariant violation: " ++ violation.describe

inductive Level where
  | trace
  | debug
  | warn
deriving DecidableEq

def Level.name : Level → String
  | trace => "TRACE"
  | debug => "DEBUG"
  | warn => "WARN"

inductive Event where
  | compiling (e : Expr)
  | compiled (t : Term) (identifiers : UInt64)
  | allocated (x : Ident)
  | entered (depth : Nat)
  | left (depth : Nat)
  | keptFree (name : String)
  | readBack (t : Term) (e : Expr)
deriving DecidableEq

namespace Event

def level : Event → Level
  | compiling _ | compiled .. | readBack .. => .debug
  | allocated _ | entered _ | left _ => .trace
  | keptFree _ => .warn

def message : Event → String
  | compiling e => "compiling " ++ e.render
  | compiled t n =>
    "compiled to " ++ t.render ++ " (" ++ Text.Decimal.ofNat n.toNat ++ " identifiers)"
  | allocated x => "allocated " ++ x.name
  | entered depth => "scope enter (depth " ++ Text.Decimal.ofNat depth ++ ")"
  | left depth => "scope exit (depth " ++ Text.Decimal.ofNat depth ++ ")"
  | keptFree name => "'" ++ name ++ "' is not bound, keeping it as an opaque free name"
  | readBack t e => "reverse compiled " ++ t.render ++ " to " ++ e.render

end Event

inductive FreeNames where
  | keep
  | reject
deriving DecidableEq

structure Canonical where
  term : Term
  identifiers : UInt64
deriving DecidableEq

namespace Naming

structure State where
  scopes : Scopes String Ident := {}
  supply : Supply := {}
  events : Array Event := #[]

abbrev Action := EStateM CanonicalError State

def emit (event : Event) : Action Unit := fun s =>
  .ok () { s with events := s.events.push event }

def enter : Action Unit := fun s =>
  let scopes := s.scopes.enter
  .ok () { s with scopes, events := s.events.push (.entered scopes.depth) }

def leave : Action Unit := fun s =>
  match s.scopes.leave with
  | .ok () scopes => .ok () { s with scopes, events := s.events.push (.left scopes.depth) }
  | .error e scopes => .error (.scope e) { s with scopes }

def declare (name : String) : Action Ident := fun s =>
  let (x, supply) := s.supply.next
  .ok x { scopes := s.scopes.define name x, supply, events := s.events.push (.allocated x) }

def declareAll (earlier : List String) : List String → Action (List Ident)
  | [] => return []
  | p :: ps =>
    if p ∈ earlier then throw (.unsupported (.repeatedParameter p))
    else do
      let x ← declare p
      let xs ← declareAll (p :: earlier) ps
      return x :: xs

/-- The variable that a name stands for. A free name must not look like an identifier: read back
under a binder of that name, it would be captured. -/
def resolve (policy : FreeNames) (name : String) : Action Term := fun s =>
  match s.scopes.find? name, policy with
  | some x, _ => .ok (.var x) s
  | none, .reject => .error (.scope (.unbound name)) s
  | none, .keep =>
    if (Ident.ofName? name).isSome then .error (.unsupported (.canonicalFreeName name)) s
    else .ok (.free name) { s with events := s.events.push (.keptFree name) }

mutual
def term (policy : FreeNames) : Expr → Action Term
  | .name x => resolve policy x
  | .int n => throw (.unsupported (.literal n))
  | .lam params body =>
    if params.isEmpty then throw (.unsupported .noParameters)
    else do
      enter
      let binders ← declareAll [] params
      let t ← term policy body
      leave
      return .curry binders t
  | .call callee args =>
    if args.isEmpty then throw (.unsupported .noArguments)
    else do
      let f ← term policy callee
      applyArgs policy f args
def applyArgs (policy : FreeNames) (callee : Term) : List Expr → Action Term
  | [] => return callee
  | a :: as => do
    let t ← term policy a
    applyArgs policy (.app callee t) as
end

def canonical (policy : FreeNames) (e : Expr) : Action Canonical := do
  emit (.compiling e)
  let t ← term policy e
  let n := (← get).supply.issued
  emit (.compiled t n)
  return ⟨t, n⟩

end Naming

namespace Canonical

def trace (policy : FreeNames) (e : Expr) : Array Event × Except CanonicalError Canonical :=
  match Naming.canonical policy e {} with
  | .ok c s => (s.events, .ok c)
  | .error err s => (s.events, .error err)

def ofExpr (policy : FreeNames) (e : Expr) : Except CanonicalError Canonical := (trace policy e).2

end Canonical

namespace Term

/-- The expression of a term under the binders `bound`, where `seen` are all binders met before.
Also returns the binders met after it. -/
def readBack (bound seen : List Ident) : Term → Except Violation (Expr × List Ident)
  | var x => if x ∈ bound then .ok (.name x.name, seen) else .error (.dangling x)
  | free name =>
    if name = "" then .error .emptyName
    else if !isIdentifier name then .error (.notIdentifier name)
    else if (Ident.ofName? name).any (· ∈ bound) then .error (.captured name)
    else .ok (.name name, seen)
  | abs x body =>
    if x ∈ seen then .error (.rebound x)
    else do
      let (e, seen) ← readBack (x :: bound) (x :: seen) body
      return (.lam [x.name] e, seen)
  | app callee argument => do
    let (f, seen) ← readBack bound seen callee
    let (a, seen) ← readBack bound seen argument
    return (.call f [a], seen)

def toExpr (t : Term) : Except CanonicalError Expr :=
  match t.readBack [] [] with
  | .ok (e, _) => .ok e
  | .error violation => .error (.illFormed violation)

def traceToExpr (t : Term) : Array Event × Except CanonicalError Expr :=
  match t.toExpr with
  | .ok e => (#[.readBack t e], .ok e)
  | .error err => (#[], .error err)

def recompile (t : Term) : Except CanonicalError Canonical := do
  Canonical.ofExpr .keep (← t.toExpr)

end Term

namespace Canonical

def traceRoundTrip (policy : FreeNames) (e : Expr) : Array Event × Except CanonicalError Expr :=
  match trace policy e with
  | (events, .error err) => (events, .error err)
  | (events, .ok c) =>
    let (more, result) := c.term.traceToExpr
    (events ++ more, result)

end Canonical

end Curried
