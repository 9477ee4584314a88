import Curried.Expr

namespace Curried

structure Ident where
  index : UInt64
deriving DecidableEq, Ord, Inhabited

namespace Ident

def name (x : Ident) : String := "x" ++ Text.Decimal.ofNat x.index.toNat

/-- The identifier with a given name. Leading zeros and indices of 2^64 and above name none. -/
def ofName? (text : String) : Option Ident :=
  match text.toList with
  | 'x' :: ds =>
    if Text.Decimal.isShortest ds && Text.Decimal.value ds < UInt64.size then
      some ⟨UInt64.ofNat (Text.Decimal.value ds)⟩
    else none
  | _ => none

end Ident

/-- A supply of identifiers. It counts those that it has issued, and the count wraps around. -/
structure Supply where
  issued : UInt64 := 0

def Supply.next (s : Supply) : Ident × Supply := (⟨s.issued⟩, ⟨s.issued + 1⟩)

inductive Term where
  | var (x : Ident)
  | free (name : String)
  | abs (binder : Ident) (body : Term)
  | app (callee argument : Term)
deriving DecidableEq, Inhabited

namespace Term

def curry (binders : List Ident) (body : Term) : Term := binders.foldr abs body

def applyTo (callee : Term) (args : List Term) : Term := args.foldl app callee

def size : Term → Nat
  | var _ | free _ => 1
  | abs _ body => 1 + body.size
  | app callee argument => 1 + callee.size + argument.size

def binders : Term → List Ident
  | var _ | free _ => []
  | abs x body => x :: body.binders
  | app callee argument => callee.binders ++ argument.binders

def freeOccurrences : Term → List String
  | var _ => []
  | free name => [name]
  | abs _ body => body.freeOccurrences
  | app callee argument => callee.freeOccurrences ++ argument.freeOccurrences

def freeNames (t : Term) : List String := t.freeOccurrences.eraseDups

def isClosed (t : Term) : Bool := t.freeNames.isEmpty

/-- The canonical text of a term. Parentheses stand around every body and every argument, and never
around a callee. -/
def render : Term → String
  | var x => x.name
  | free name => name
  | abs x body => "λ" ++ x.name ++ ".(" ++ body.render ++ ")"
  | app callee argument => callee.render ++ "(" ++ argument.render ++ ")"

end Term

inductive Nameless where
  | bound (distance : Nat)
  | free (name : String)
  | abs (body : Nameless)
  | app (callee argument : Nameless)
deriving DecidableEq

namespace Nameless

def absMany (n : Nat) (body : Nameless) : Nameless := Nat.repeat abs n body

end Nameless

mutual
/-- The curried nameless form of an expression under parameters `scope`, innermost first. Integers
have none. -/
def Expr.nameless? (scope : List String) : Expr → Option Nameless
  | .name x => some ((scope.idxOf? x).elim (.free x) .bound)
  | .int _ => none
  | .lam params body =>
    (body.nameless? (params.reverse ++ scope)).map (Nameless.absMany params.length)
  | .call callee args => do Expr.namelessArgs? scope (← callee.nameless? scope) args
def Expr.namelessArgs? (scope : List String) (callee : Nameless) : List Expr → Option Nameless
  | [] => some callee
  | a :: as => do Expr.namelessArgs? scope (.app callee (← a.nameless? scope)) as
end

def Term.nameless? (scope : List Ident) : Term → Option Nameless
  | .var x => (scope.idxOf? x).map .bound
  | .free name => some (.free name)
  | .abs x body => (body.nameless? (x :: scope)).map .abs
  | .app callee argument => do
    return .app (← callee.nameless? scope) (← argument.nameless? scope)

end Curried
