import Curried.Value

/-!
Call by value on a machine that keeps its pending work in a list of frames. Only calls are counted:
the machine stops when it has none left, and between two calls the pending work gets smaller, so it
always stops.
-/

namespace Curried

structure Interpreter (ν : Type) where
  globals : Env ν := []
  limit : Nat := 10000

namespace Machine

inductive Control (ν : Type) where
  | eval (e : Expr) (env : Env ν)
  | ret (value : Value ν)
  | call (callee : Value ν) (args : List (Value ν))

/-- What waits for a value: a call for its callee, a call for its next argument, or arguments left
over by a native for its result. -/
inductive Frame (ν : Type) where
  | callee (args : List Expr) (env : Env ν)
  | argument (callee : Value ν) (done : List (Value ν)) (todo : List Expr) (env : Env ν)
  | leftover (args : List (Value ν))

structure State (ν : Type) where
  control : Control ν
  frames : List (Frame ν)
  callsLeft : Nat

inductive Progress (ν : Type) where
  | next (s : State ν)
  | done (value : Value ν) (callsLeft : Nat)

variable {ν : Type}

def gather (callee : Value ν) (done : List (Value ν)) (env : Env ν) (frames : List (Frame ν))
    (callsLeft : Nat) : List Expr → State ν
  | [] => ⟨.call callee done, frames, callsLeft⟩
  | a :: todo => ⟨.eval a env, .argument callee done todo env :: frames, callsLeft⟩

def step [Host ν] (I : Interpreter ν) : State ν → Except EvalError (Progress ν)
  | ⟨.eval (.int n) _, frames, left⟩ => .ok (.next ⟨.ret (.int n), frames, left⟩)
  | ⟨.eval (.name x) env, frames, left⟩ =>
    match (env.lookup x).or (I.globals.lookup x) with
    | some v => .ok (.next ⟨.ret v, frames, left⟩)
    | none => .error (.unbound x)
  | ⟨.eval (.lam params body) env, frames, left⟩ =>
    .ok (.next ⟨.ret (.closure params body env), frames, left⟩)
  | ⟨.eval (.call f args) env, frames, left⟩ =>
    .ok (.next ⟨.eval f env, .callee args env :: frames, left⟩)
  | ⟨.ret v, [], left⟩ => .ok (.done v left)
  | ⟨.ret v, .callee args env :: frames, left⟩ => .ok (.next (gather v [] env frames left args))
  | ⟨.ret v, .argument f done todo env :: frames, left⟩ =>
    .ok (.next (gather f (done ++ [v]) env frames left todo))
  | ⟨.ret v, .leftover args :: frames, left⟩ => .ok (.next ⟨.call v args, frames, left⟩)
  | ⟨.call _ _, _, 0⟩ => .error (.callLimit I.limit)
  | ⟨.call f args, frames, left + 1⟩ => do
    match ← f.react args with
    | .enter body env => return .next ⟨.eval body env, frames, left⟩
    | .yield v [] => return .next ⟨.ret v, frames, left⟩
    | .yield v rest => return .next ⟨.ret v, .leftover rest :: frames, left⟩

inductive Move (ν : Type) where
  | stop (value : Value ν)
  | go (control : Control ν) (frames : List (Frame ν))

def Progress.move : Progress ν → Move ν
  | next s => .go s.control s.frames
  | done v _ => .stop v

def move [Host ν] (globals : Env ν) (control : Control ν) (frames : List (Frame ν)) :
    Except EvalError (Move ν) :=
  (step ⟨globals, 1⟩ ⟨control, frames, 1⟩).map Progress.move

end Machine

mutual
def Expr.work : Expr → Nat
  | .name _ | .int _ | .lam .. => 2
  | .call callee args => 1 + callee.work + Expr.workAll args
def Expr.workAll : List Expr → Nat
  | [] => 0
  | a :: as => a.work + Expr.workAll as
end

namespace Machine

variable {ν : Type}

def Control.work : Control ν → Nat
  | eval e _ => e.work
  | ret _ => 1
  | call .. => 0

def Frame.work : Frame ν → Nat
  | callee args _ => Expr.workAll args
  | argument _ _ todo _ => Expr.workAll todo
  | leftover _ => 0

def framesWork : List (Frame ν) → Nat
  | [] => 0
  | frame :: frames => frame.work + framesWork frames

def State.work (s : State ν) : Nat := s.control.work + framesWork s.frames

/-- A state gets smaller by a call, or by less work with as many calls left. -/
def State.measure (s : State ν) : Nat × Nat := (s.callsLeft, s.work)

theorem measure_gather_lt (v f : Value ν) (done : List (Value ν)) (env : Env ν)
    (frames : List (Frame ν)) (left : Nat) (todo : List Expr) (frame : Frame ν)
    (hf : frame.work = Expr.workAll todo) :
    Prod.Lex (· < ·) (· < ·) (gather f done env frames left todo).measure
      (State.measure ⟨.ret v, frame :: frames, left⟩) := by
  cases todo with
  | nil =>
    apply Prod.Lex.right
    simp only [gather, State.work, Control.work, framesWork]
    omega
  | cons a todo =>
    apply Prod.Lex.right
    simp only [gather, State.work, Control.work, Frame.work, Expr.workAll, framesWork] at hf ⊢
    omega

/-- Every step makes the measure smaller. -/
theorem measure_lt_of_step [Host ν] {I : Interpreter ν} {s t : State ν}
    (h : step I s = .ok (.next t)) : Prod.Lex (· < ·) (· < ·) t.measure s.measure := by
  rcases s with ⟨control, frames, left⟩
  match control, frames with
  | .eval (.int n) env, frames =>
    cases h
    exact .right _ (by simp only [State.work, Control.work, Expr.work]; omega)
  | .eval (.name x) env, frames =>
    simp only [step] at h
    split at h <;> cases h
    exact .right _ (by simp only [State.work, Control.work, Expr.work]; omega)
  | .eval (.lam params body) env, frames =>
    cases h
    exact .right _ (by simp only [State.work, Control.work, Expr.work]; omega)
  | .eval (.call f args) env, frames =>
    cases h
    apply Prod.Lex.right
    simp only [State.work, Control.work, Frame.work, Expr.work, framesWork]
    omega
  | .ret v, [] => cases h
  | .ret v, .callee args env :: frames =>
    cases h
    exact measure_gather_lt v v [] env frames left args _ rfl
  | .ret v, .argument f done todo env :: frames =>
    cases h
    exact measure_gather_lt v f (done ++ [v]) env frames left todo _ rfl
  | .ret v, .leftover args :: frames =>
    cases h
    apply Prod.Lex.right
    simp only [State.work, Control.work, Frame.work, framesWork]
    omega
  | .call f args, frames =>
    cases left with
    | zero => cases h
    | succ left =>
      simp only [step] at h
      cases hr : f.react args with
      | error e => rw [hr] at h; cases h
      | ok reaction =>
        rw [hr] at h
        match reaction with
        | .enter body env => cases h; exact .left _ _ (Nat.lt_succ_self left)
        | .yield v [] => cases h; exact .left _ _ (Nat.lt_succ_self left)
        | .yield v (a :: rest) => cases h; exact .left _ _ (Nat.lt_succ_self left)

def run [Host ν] (I : Interpreter ν) (s : State ν) : Except EvalError (Value ν × Nat) :=
  match _h : step I s with
  | .error e => .error e
  | .ok (.done v left) => .ok (v, left)
  | .ok (.next t) => run I t
termination_by s.measure
decreasing_by exact measure_lt_of_step _h

end Machine

end Curried
