import Curried.Expr

namespace Curried

inductive EvalError where
  | unbound (name : String)
  | notCallable (value : String)
  | arity (callee : String) (expected found : Nat)
  | mismatch (expected found : String)
  | callLimit (limit : Nat)
deriving DecidableEq

def EvalError.message : EvalError → String
  | unbound name => "Unbound name '" ++ name ++ "'"
  | notCallable value => value ++ " is not callable"
  | arity callee expected found =>
    callee ++ " expects " ++ Text.Decimal.ofNat expected ++ " argument(s) but got " ++
      Text.Decimal.ofNat found
  | mismatch expected found => "Type mismatch: expected " ++ expected ++ ", found " ++ found
  | callLimit limit => "Step limit of " ++ Text.Decimal.ofNat limit ++ " calls exceeded"

inductive Builtin where
  | inc
  | dec
  | add
  | mul
  | isZero
deriving DecidableEq

inductive Native (ν : Type) where
  | builtin (f : Builtin)
  | host (f : ν)
deriving DecidableEq

inductive Value (ν : Type) where
  | int (n : Int64)
  | closure (params : List String) (body : Expr) (env : List (String × Value ν))
  | native (f : Native ν) (received : List (Value ν))
deriving Inhabited

abbrev Env (ν : Type) := List (String × Value ν)

class Signature (ν : Type) where
  name : ν → String
  arity : ν → Nat

namespace Builtin

def name : Builtin → String
  | inc => "inc"
  | dec => "dec"
  | add => "add"
  | mul => "mul"
  | isZero => "is_zero"

def arity : Builtin → Nat
  | inc | dec | isZero => 1
  | add | mul => 2

end Builtin

namespace Native

variable {ν : Type} [Signature ν]

def name : Native ν → String
  | builtin f => f.name
  | host f => Signature.name f

def arity : Native ν → Nat
  | builtin f => f.arity
  | host f => Signature.arity f

/-- The number of arguments that a native misses. It wraps around where too many were received. -/
def missing (f : Native ν) (received : Nat) : Nat :=
  if received ≤ f.arity then f.arity - received
  else UInt64.size - (received - f.arity) % UInt64.size

theorem missing_of_le {f : Native ν} {received : Nat} (h : received ≤ f.arity) :
    f.missing received = f.arity - received :=
  if_pos h

theorem missing_eq_zero_iff {f : Native ν} {received : Nat} :
    f.missing received = 0 ↔ received = f.arity := by
  have hlt : (received - f.arity) % UInt64.size < UInt64.size := Nat.mod_lt _ (by decide)
  rw [missing]
  split <;> omega

end Native

namespace Value

variable {ν : Type}

def int? : Value ν → Option Int64
  | int n => some n
  | _ => none

def isCallable (v : Value ν) : Bool := v.int?.isNone

variable [Signature ν]

def render : Value ν → String
  | int n => Text.Decimal.ofInt n.toInt
  | closure params _ _ => "<lambda " ++ commaSeparated params ++ ">"
  | native f [] => "<native " ++ f.name ++ ">"
  | native f received =>
    "<native " ++ f.name ++ " applied to " ++ Text.Decimal.ofNat received.length ++ ">"

def describe (v : Value ν) : String := "Value(" ++ v.render ++ ")"

def toInt (v : Value ν) : Except EvalError Int64 :=
  match v.int? with
  | some n => .ok n
  | none => .error (.mismatch "integer" v.render)

def toBoolean (v : Value ν) : Except EvalError Bool := do
  let n ← v.toInt
  if n = 1 then return true
  else if n = 0 then return false
  else throw (.mismatch "Church boolean" (Text.Decimal.ofInt n.toInt))

end Value

class Host (ν : Type) extends Signature ν where
  run : ν → List (Value ν) → Except EvalError (Value ν)

variable {ν : Type}

/-- The value of a built-in function. Sums, differences and products wrap around at 64 bits, and
arguments are checked from left to right. -/
def Builtin.run [Signature ν] : Builtin → List (Value ν) → Except EvalError (Value ν)
  | inc, [a] => return .int ((← a.toInt) + 1)
  | dec, [a] => return .int ((← a.toInt) - 1)
  | add, [a, b] => return .int ((← a.toInt) + (← b.toInt))
  | mul, [a, b] => return .int ((← a.toInt) * (← b.toInt))
  | isZero, [a] => return .int (if (← a.toInt) = 0 then 1 else 0)
  | f, args => .error (.arity f.name f.arity args.length)

def Native.run [Host ν] : Native ν → List (Value ν) → Except EvalError (Value ν)
  | builtin f, args => f.run args
  | host f, args => Host.run f args

def Value.ofBuiltin (f : Builtin) : Value ν := .native (.builtin f) []

inductive Reaction (ν : Type) where
  | enter (body : Expr) (env : Env ν)
  | yield (value : Value ν) (leftover : List (Value ν))

/-- Calls a value. A function needs one argument for each parameter; a native waits until it has as
many as its arity, and takes no more. -/
def Value.react [Host ν] (callee : Value ν) (args : List (Value ν)) :
    Except EvalError (Reaction ν) :=
  match callee with
  | .int _ => .error (.notCallable callee.render)
  | .closure params body env =>
    if params.length = args.length then .ok (.enter body ((params.zip args).reverse ++ env))
    else .error (.arity callee.render params.length args.length)
  | .native f received =>
    if args.isEmpty then .error (.arity callee.render (f.missing received.length) 0)
    else
      let all := received ++ args
      if all.length < f.arity then .ok (.yield (.native f all) [])
      else do return .yield (← f.run (all.take f.arity)) (all.drop f.arity)

/-- The functions of the stock. `konst` makes a function that always gives the same value, which is
then a `constant`. -/
inductive Stock where
  | konst
  | constant (v : Value Stock)
  | second
  | sum3
  | choose
  | unit
  | fail

namespace Stock

def name : Stock → String
  | konst => "konst"
  | constant _ => "k"
  | second => "second"
  | sum3 => "sum3"
  | choose => "choose"
  | unit => "unit"
  | fail => "fail"

def arity : Stock → Nat
  | konst | constant _ | fail => 1
  | second | sum3 | choose => 3
  | unit => 0

instance : Signature Stock := ⟨name, arity⟩

def run : Stock → List (Value Stock) → Except EvalError (Value Stock)
  | konst, [a] => .ok (.native (.host (constant a)) [])
  | constant v, [_] => .ok v
  | second, [_, b, _] => .ok b
  | sum3, [a, b, c] => return .int ((← a.toInt) + (← b.toInt) + (← c.toInt))
  | choose, [c, a, b] => return if (← c.toInt) = 0 then b else a
  | unit, [] => .ok (.int 42)
  | fail, [a] => .error (.mismatch "nothing" a.render)
  | f, args => .error (.arity f.name f.arity args.length)

instance : Host Stock := ⟨run⟩

def ofName? (text : String) : Option Stock :=
  [konst, second, sum3, choose, unit, fail].find? (·.name == text)

end Stock

end Curried
