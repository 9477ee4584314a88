import Curried.Canonical
import Curried.Machine
import Curried.Parse

namespace Curried

namespace Interpreter

variable {ν : Type}

def builtins : Env ν :=
  [Builtin.inc, .dec, .add, .mul, .isZero].map fun f => (f.name, .ofBuiltin f)

def define (I : Interpreter ν) (name : String) (v : Value ν) : Interpreter ν :=
  { I with globals := (name, v) :: I.globals }

variable [Host ν]

def evaluate (I : Interpreter ν) (e : Expr) : Except EvalError (Value ν) :=
  (Machine.run I ⟨.eval e [], [], I.limit⟩).map Prod.fst

def apply (I : Interpreter ν) (callee : Value ν) (args : List (Value ν)) :
    Except EvalError (Value ν) :=
  (Machine.run I ⟨.call callee args, [], I.limit⟩).map Prod.fst

def applyTwice (I : Interpreter ν) (callee first second : Value ν) :
    Except EvalError (Value ν) := do
  let (v, left) ← Machine.run I ⟨.call callee [first], [], I.limit⟩
  let (w, _) ← Machine.run I ⟨.call v [second], [], left⟩
  return w

def readNumeral (I : Interpreter ν) (numeral : Value ν) : Except EvalError Int64 := do
  (← I.applyTwice numeral (.ofBuiltin .inc) (.int 0)).toInt

def readBoolean (I : Interpreter ν) (boolean : Value ν) : Except EvalError Bool := do
  (← I.applyTwice boolean (.int 1) (.int 0)).toBoolean

end Interpreter

/-- An interpreter that counts its calls in a word, from zero up to the limit. The count wraps
around: no count is above the greatest limit. -/
structure Evaluator (ν : Type) where
  globals : Env ν := []
  limit : UInt64 := 10000

namespace Evaluator

structure State (ν : Type) where
  control : Machine.Control ν
  frames : List (Machine.Frame ν)
  calls : UInt64

variable {ν : Type}

def standard : Evaluator ν := { globals := Interpreter.builtins }

def define (R : Evaluator ν) (name : String) (v : Value ν) : Evaluator ν :=
  { R with globals := (name, v) :: R.globals }

def count (R : Evaluator ν) (calls : UInt64) : Machine.Control ν → Except EvalError UInt64
  | .call .. =>
    if R.limit < calls + 1 then .error (.callLimit R.limit.toNat) else .ok (calls + 1)
  | _ => .ok calls

variable [Host ν]

def step (R : Evaluator ν) (s : State ν) : Except EvalError (Machine.Move ν × UInt64) := do
  let calls ← R.count s.calls s.control
  return (← Machine.move R.globals s.control s.frames, calls)

/-- Steps until there is a value or an error. A run that never ends gives nothing. -/
def run (R : Evaluator ν) (s : State ν) : Option (Except EvalError (Value ν × UInt64)) :=
  match R.step s with
  | .error e => some (.error e)
  | .ok (.stop v, calls) => some (.ok (v, calls))
  | .ok (.go control frames, calls) => R |>.run ⟨control, frames, calls⟩
partial_fixpoint

def evaluate (R : Evaluator ν) (e : Expr) : Option (Except EvalError (Value ν)) :=
  (R.run ⟨.eval e [], [], 0⟩).map (Except.map Prod.fst)

def apply (R : Evaluator ν) (callee : Value ν) (args : List (Value ν)) :
    Option (Except EvalError (Value ν)) :=
  (R.run ⟨.call callee args, [], 0⟩).map (Except.map Prod.fst)

def applyTwice (R : Evaluator ν) (callee first second : Value ν) :
    Option (Except EvalError (Value ν)) :=
  (R.run ⟨.call callee [first], [], 0⟩).bind fun
    | .error e => some (.error e)
    | .ok (v, calls) => (R.run ⟨.call v [second], [], calls⟩).map (Except.map Prod.fst)

def readNumeral (R : Evaluator ν) (numeral : Value ν) : Option (Except EvalError Int64) :=
  (R.applyTwice numeral (.ofBuiltin .inc) (.int 0)).map (· >>= Value.toInt)

def readBoolean (R : Evaluator ν) (boolean : Value ν) : Option (Except EvalError Bool) :=
  (R.applyTwice boolean (.int 1) (.int 0)).map (· >>= Value.toBoolean)

end Evaluator

inductive ProgramError where
  | parse (e : ParseError)
  | canonical (e : CanonicalError)
  | eval (e : EvalError)
deriving DecidableEq

namespace Program

def term (text : String) : Except ProgramError Term := do
  let e ← (parse text).mapError .parse
  let c ← (Canonical.ofExpr .keep e).mapError .canonical
  return c.term

def normalize (text : String) : Except ProgramError String :=
  (term text).map Term.render

/-- The expression that a text is run as: its canonical term, read back. Free names are globals. -/
def tree (text : String) : Except ProgramError Expr := do
  let t ← term text
  t.toExpr.mapError .canonical

variable {ν : Type} [Host ν]

def run (I : Interpreter ν) (text : String) : Except ProgramError (Value ν) := do
  let e ← tree text
  (I.evaluate e).mapError .eval

def execute (R : Evaluator ν) (text : String) : Option (Except ProgramError (Value ν)) :=
  match tree text with
  | .error e => some (.error e)
  | .ok e => (R.evaluate e).map (Except.mapError .eval)

end Program

end Curried
