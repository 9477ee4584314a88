import Curried.Proofs.Counting
import Curried.Proofs.Pending
import Curried.Proofs.Splitting

namespace Curried

open Machine

variable {ν : Type} [Host ν] (globals : Env ν)

def Evaluates (env : Env ν) (e : Expr) (k : Nat) (v : Value ν) : Prop :=
  Costs (runFrom globals (.eval e env) []) k (.ok v)

def Gives (f x : Value ν) (k : Nat) (y : Value ν) : Prop :=
  Costs (runFrom globals (.call f [x]) []) k (.ok y)

variable {globals} {env : Env ν}

theorem evaluates_name {x : String} {v : Value ν}
    (h : (env.lookup x).or (globals.lookup x) = some v) :
    Evaluates globals env (.name x) 0 v := by
  apply costs_zero_iff.mpr
  intro limit left
  exact (run_name_some _ [] left h).trans (run_ret_nil _ left v)

theorem evaluates_lam (params : List String) (body : Expr) :
    Evaluates globals env (.lam params body) 0 (.closure params body env) := by
  apply costs_zero_iff.mpr
  intro limit left
  exact (run_lam _ [] left params body env).trans (run_ret_nil _ left _)

/-- A call evaluates its callee, then its argument, and then calls the one with the other. -/
theorem runFrom_call_single (f a : Expr) :
    runFrom globals (.eval (.call f [a]) env) [] =
      (runFrom globals (.eval f env) []).andThen fun g =>
        (runFrom globals (.eval a env) []).andThen fun x => runFrom globals (.call g [x]) [] := by
  funext limit left
  rw [runFrom, run_callee, run_eval_under]
  apply congrArg (run ⟨globals, limit⟩ ⟨.eval f env, [], left⟩ >>= ·)
  funext p
  rw [run_ret_callee, gather, run_eval_under]
  apply congrArg (run ⟨globals, limit⟩ ⟨.eval a env, [], p.2⟩ >>= ·)
  funext q
  rw [run_ret_argument]
  rfl

theorem Evaluates.call {f a : Expr} {g x y : Value ν} {i j k : Nat}
    (hf : Evaluates globals env f i g) (ha : Evaluates globals env a j x)
    (hy : Gives globals g x k y) : Evaluates globals env (.call f [a]) (i + (j + k)) y := by
  rw [Evaluates, runFrom_call_single]
  exact Costs.andThen hf (Costs.andThen ha hy)

/-- Entering a function of one parameter is one call. -/
theorem Evaluates.gives {p : String} {x y : Value ν} {body : Expr} {k : Nat}
    (h : Evaluates globals ((p, x) :: env) body k y) :
    Gives globals (.closure [p] body env) x (k + 1) y := by
  intro limit left
  cases left with
  | zero => exact run_call_zero _ [] _ _
  | succ left =>
    have henter : (Value.closure [p] body env).react [x] = .ok (.enter body ((p, x) :: env)) := rfl
    rw [runFrom, run_call_of_enter _ henter, Nat.add_sub_add_right]
    simp only [Nat.add_le_add_iff_right]
    exact h limit left

/-- The built-in increment is one call. -/
theorem gives_inc (n : Int64) : Gives globals (.ofBuiltin .inc) (.int n) 1 (.int (n + 1)) :=
  costs_call_of_yield rfl

theorem Evaluates.evaluate {e : Expr} {k limit : Nat} {v : Value ν}
    (h : Evaluates globals [] e k v) (hk : k ≤ limit) :
    Interpreter.evaluate ⟨globals, limit⟩ e = .ok v :=
  Costs.outcome h hk

theorem Gives.apply {f x y : Value ν} {k limit : Nat} (h : Gives globals f x k y)
    (hk : k ≤ limit) : Interpreter.apply ⟨globals, limit⟩ f [x] = .ok y :=
  Costs.outcome h hk

/-- Two calls, one of the result of the other, share the limit. -/
theorem Gives.applyTwice {f g x y z : Value ν} {i j : Nat} (hf : Gives globals f x i g)
    (hg : Gives globals g y j z) (limit : Nat) :
    Interpreter.applyTwice ⟨globals, limit⟩ f x y =
      if i + j ≤ limit then .ok z else .error (.callLimit limit) := by
  have h : Costs ((runFrom globals (.call f [x]) []).andThen
      fun w => runFrom globals (.call w [y]) []) (i + j) (.ok z) := Costs.andThen hf hg
  rw [Interpreter.applyTwice_eq]
  change ((Limited.andThen (runFrom globals (.call f [x]) [])
    fun w => runFrom globals (.call w [y]) []) limit limit).map Prod.fst = _
  rw [h limit limit]
  split <;> rfl

theorem comesTo_of_costs {control : Control ν} {frames : List (Frame ν)} {k : Nat} {v : Value ν}
    (h : Costs (runFrom globals control frames) k (.ok v)) :
    ComesTo globals control frames k (.ok v) := by
  have hrun : run ⟨globals, k⟩ ⟨control, frames, k⟩ = .ok (v, k - k) :=
    (h k k).trans (if_pos (Nat.le_refl k))
  obtain ⟨j, hj, hk⟩ := comesTo_of_run hrun
  obtain rfl : j = k := by simpa using hk
  exact hj

end Curried
