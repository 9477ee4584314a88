import Curried.Proofs.Invariant
import Curried.Proofs.Run

namespace Curried.Machine

variable {ν : Type}

def State.under (pending : List (Frame ν)) (s : State ν) : State ν :=
  ⟨s.control, s.frames ++ pending, s.callsLeft⟩

def Progress.under (pending : List (Frame ν)) : Progress ν → Progress ν
  | next s => next (s.under pending)
  | done v left => next ⟨.ret v, pending, left⟩

theorem gather_under (pending : List (Frame ν)) (f : Value ν) (done : List (Value ν)) (env : Env ν)
    (frames : List (Frame ν)) (left : Nat) (todo : List Expr) :
    gather f done env (frames ++ pending) left todo =
      (gather f done env frames left todo).under pending := by
  cases todo <;> rfl

variable [Host ν] (I : Interpreter ν) (pending : List (Frame ν))

/-- A step that is not the last one leaves alone what is pending below. -/
theorem step_under {s : State ν} (h : ∀ v left, step I s ≠ .ok (.done v left)) :
    step I (s.under pending) = (step I s).map (Progress.under pending) := by
  rcases s with ⟨control, frames, left⟩
  match control, frames with
  | .eval (.int n) env, frames => rfl
  | .eval (.name x) env, frames =>
    simp only [State.under, step]
    split <;> rfl
  | .eval (.lam params body) env, frames => rfl
  | .eval (.call f args) env, frames => rfl
  | .ret v, [] => exact absurd rfl (h v left)
  | .ret v, .callee args env :: frames =>
    exact congrArg (Except.ok ∘ Progress.next) (gather_under pending v [] env frames left args)
  | .ret v, .argument f done todo env :: frames =>
    exact congrArg (Except.ok ∘ Progress.next)
      (gather_under pending f (done ++ [v]) env frames left todo)
  | .ret v, .leftover args :: frames => rfl
  | .call f args, frames =>
    cases left with
    | zero => rfl
    | succ left =>
      simp only [State.under, step]
      cases f.react args with
      | error err => rfl
      | ok reaction =>
        cases reaction with
        | enter body env => rfl
        | yield v rest => cases rest <;> rfl

/-- A run under pending frames is the run without them, and then that of its value under them. -/
theorem run_under (s : State ν) :
    run I (s.under pending) = run I s >>= fun p => run I ⟨.ret p.1, pending, p.2⟩ := by
  fun_induction run I s with
  | case1 s err he =>
    have hstep := step_under I pending (s := s) (by simp [he])
    rw [he] at hstep
    exact run_of_error I hstep
  | case2 s v left hd =>
    have hdone := step_advances I s
    rw [hd] at hdone
    cases hdone
    rfl
  | case3 s t ht ih =>
    have hstep := step_under I pending (s := s) (by simp [ht])
    rw [ht] at hstep
    rw [← ih]
    exact run_of_next I hstep

theorem run_call_under (f : Value ν) (args : List (Value ν)) (left : Nat) :
    run I ⟨.call f args, pending, left⟩ =
      run I ⟨.call f args, [], left⟩ >>= fun p => run I ⟨.ret p.1, pending, p.2⟩ :=
  run_under I pending ⟨.call f args, [], left⟩

theorem run_eval_under (e : Expr) (env : Env ν) (left : Nat) :
    run I ⟨.eval e env, pending, left⟩ =
      run I ⟨.eval e env, [], left⟩ >>= fun p => run I ⟨.ret p.1, pending, p.2⟩ :=
  run_under I pending ⟨.eval e env, [], left⟩

end Curried.Machine
