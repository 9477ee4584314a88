import Curried.Machine
import Curried.Proofs.Success

namespace Curried.Machine

variable {ν : Type} [Host ν] (I : Interpreter ν)

theorem run_of_next {s t : State ν} (h : step I s = .ok (.next t)) : run I s = run I t := by
  rw [run]
  split
  · next he => rw [h] at he; cases he
  · next hd => rw [h] at hd; cases hd
  · next u hu =>
    rw [h] at hu
    cases hu
    rfl

theorem run_of_error {s : State ν} {err : EvalError} (h : step I s = .error err) :
    run I s = .error err := by
  rw [run]
  split
  · next he => rw [h] at he; cases he; rfl
  · next hd => rw [h] at hd; cases hd
  · next hu => rw [h] at hu; cases hu

theorem run_of_done {s : State ν} {v : Value ν} {left : Nat} (h : step I s = .ok (.done v left)) :
    run I s = .ok (v, left) := by
  rw [run]
  split
  · next he => rw [h] at he; cases he
  · next hd => rw [h] at hd; cases hd; rfl
  · next hu => rw [h] at hu; cases hu

theorem run_congr {s t : State ν} (h : step I s = step I t) : run I s = run I t := by
  cases hs : step I s with
  | error e => exact (run_of_error I hs).trans (run_of_error I (h ▸ hs)).symm
  | ok progress =>
    cases progress with
    | next u => exact (run_of_next I hs).trans (run_of_next I (h ▸ hs)).symm
    | done v left => exact (run_of_done I hs).trans (run_of_done I (h ▸ hs)).symm

section

variable (frames : List (Frame ν)) (left : Nat)

theorem run_ret_nil (v : Value ν) : run I ⟨.ret v, [], left⟩ = .ok (v, left) :=
  run_of_done I rfl

theorem run_int (n : Int64) (env : Env ν) :
    run I ⟨.eval (.int n) env, frames, left⟩ = run I ⟨.ret (.int n), frames, left⟩ :=
  run_of_next I rfl

theorem run_lam (params : List String) (body : Expr) (env : Env ν) :
    run I ⟨.eval (.lam params body) env, frames, left⟩ =
      run I ⟨.ret (.closure params body env), frames, left⟩ :=
  run_of_next I rfl

theorem run_name_some {x : String} {env : Env ν} {v : Value ν}
    (h : (env.lookup x).or (I.globals.lookup x) = some v) :
    run I ⟨.eval (.name x) env, frames, left⟩ = run I ⟨.ret v, frames, left⟩ :=
  run_of_next I (by simp only [step, h])

theorem run_name_none {x : String} {env : Env ν}
    (h : (env.lookup x).or (I.globals.lookup x) = none) :
    run I ⟨.eval (.name x) env, frames, left⟩ = .error (.unbound x) :=
  run_of_error I (by simp only [step, h])

theorem run_callee (f : Expr) (args : List Expr) (env : Env ν) :
    run I ⟨.eval (.call f args) env, frames, left⟩ =
      run I ⟨.eval f env, .callee args env :: frames, left⟩ :=
  run_of_next I rfl

theorem run_ret_callee (v : Value ν) (args : List Expr) (env : Env ν) :
    run I ⟨.ret v, .callee args env :: frames, left⟩ = run I (gather v [] env frames left args) :=
  run_of_next I rfl

theorem run_ret_argument (v f : Value ν) (done : List (Value ν)) (todo : List Expr) (env : Env ν) :
    run I ⟨.ret v, .argument f done todo env :: frames, left⟩ =
      run I (gather f (done ++ [v]) env frames left todo) :=
  run_of_next I rfl

theorem run_call_zero (f : Value ν) (args : List (Value ν)) :
    run I ⟨.call f args, frames, 0⟩ = .error (.callLimit I.limit) :=
  run_of_error I rfl

variable {frames left} {f : Value ν} {args : List (Value ν)}

theorem run_call_of_error {err : EvalError} (h : f.react args = .error err) :
    run I ⟨.call f args, frames, left + 1⟩ = .error err := by
  apply run_of_error
  simp only [step, h]
  rfl

theorem run_call_of_enter {body : Expr} {env : Env ν} (h : f.react args = .ok (.enter body env)) :
    run I ⟨.call f args, frames, left + 1⟩ = run I ⟨.eval body env, frames, left⟩ := by
  apply run_of_next
  simp only [step, h]
  rfl

theorem run_call_of_yield {v : Value ν} (h : f.react args = .ok (.yield v [])) :
    run I ⟨.call f args, frames, left + 1⟩ = run I ⟨.ret v, frames, left⟩ := by
  apply run_of_next
  simp only [step, h]
  rfl

/-- Arguments that a native leaves over are a call of its value. -/
theorem run_call_of_leftover {v : Value ν} {rest : List (Value ν)} (hr : rest ≠ [])
    (h : f.react args = .ok (.yield v rest)) :
    run I ⟨.call f args, frames, left + 1⟩ = run I ⟨.call v rest, frames, left⟩ := by
  obtain ⟨a, as, rfl⟩ := List.exists_cons_of_ne_nil hr
  have hs : step I ⟨.call f args, frames, left + 1⟩ =
      .ok (.next ⟨.ret v, .leftover (a :: as) :: frames, left⟩) := by
    simp only [step, h]
    rfl
  rw [run_of_next I hs]
  exact run_of_next I rfl

end

end Curried.Machine
