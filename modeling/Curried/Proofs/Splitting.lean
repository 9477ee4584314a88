import Curried.Interpreter
import Curried.Proofs.Invariant
import Curried.Proofs.Run

namespace Curried

open Machine

variable {ν α β : Type}

abbrev Limited (α : Type) := Nat → Nat → Except EvalError (α × Nat)

def Limited.andThen (F : Limited α) (G : α → Limited β) : Limited β := fun limit left =>
  F limit left >>= fun p => G p.1 limit p.2

/-- A computation makes `k` calls and comes to `o`. With fewer calls left it exceeds the limit. -/
def Costs (F : Limited α) (k : Nat) (o : Except EvalError α) : Prop :=
  ∀ limit left, F limit left =
    if k ≤ left then o.map fun a => (a, left - k) else .error (.callLimit limit)

theorem costs_zero_iff {F : Limited α} {o : Except EvalError α} :
    Costs F 0 o ↔ ∀ limit left, F limit left = o.map fun a => (a, left) := by
  simp [Costs]

theorem Costs.andThen {F : Limited α} {G : α → Limited β} {a : α} {j k : Nat}
    {o : Except EvalError β} (hF : Costs F k (.ok a)) (hG : Costs (G a) j o) :
    Costs (F.andThen G) (k + j) o := by
  intro limit left
  rw [Limited.andThen, hF limit left]
  split
  · next hk =>
    simp only [Except.map, ok_bind, hG limit (left - k), Nat.le_sub_iff_add_le' hk, Nat.sub_sub]
  · next hk => rw [error_bind, if_neg (by omega)]

theorem Costs.andThen_error {F : Limited α} {G : α → Limited β} {k : Nat} {e : EvalError}
    (hF : Costs F k (.error e)) : Costs (F.andThen G) k (.error e) := by
  intro limit left
  rw [Limited.andThen, hF limit left]
  split <;> rfl

def Limited.charge (n : Nat) (F : Limited α) : Limited α := fun limit left =>
  if n ≤ left then F limit (left - n) else .error (.callLimit limit)

theorem Limited.charge_add (n : Nat) (F : Limited α) (limit left : Nat) :
    F.charge n limit (left + n) = F limit left := by
  rw [charge, if_pos (Nat.le_add_left n left), Nat.add_sub_cancel]

/-- Calls in front add to the cost. -/
theorem costs_charge_iff {n k : Nat} {F : Limited α} {o : Except EvalError α} :
    Costs (F.charge n) (k + n) o ↔ Costs F k o := by
  constructor
  · intro h limit left
    rw [← F.charge_add n limit left, h limit (left + n)]
    simp only [Nat.add_le_add_iff_right, Nat.add_sub_add_right]
  · intro h limit left
    by_cases hn : n ≤ left
    · obtain ⟨rest, rfl⟩ := Nat.exists_eq_add_of_le' hn
      rw [F.charge_add n limit rest, h limit rest]
      simp only [Nat.add_le_add_iff_right, Nat.add_sub_add_right]
    · have hk : ¬ k + n ≤ left := by omega
      rw [Limited.charge, if_neg hn, if_neg hk]

/-- What comes after a computation of known cost comes after as many calls. -/
theorem Costs.andThen_eq {F : Limited α} {G : α → Limited β} {k : Nat} {a : α}
    (hF : Costs F k (.ok a)) : F.andThen G = (G a).charge k := by
  funext limit left
  rw [Limited.andThen, hF limit left, Limited.charge]
  split <;> rfl

/-- A cost and an outcome make up a computation. -/
theorem Costs.ext {F G : Limited α} {k : Nat} {o : Except EvalError α} (hF : Costs F k o)
    (hG : Costs G k o) : F = G := by
  funext limit left
  rw [hF limit left, hG limit left]

/-- A computation that exceeds every limit with as many calls left costs more. -/
theorem Costs.lt_of_exceeds {F : Limited α} {k left : Nat} {o : Except EvalError α}
    (hF : Costs F k o) (h : ∀ limit, F limit left = .error (.callLimit limit)) : left < k := by
  by_contra hle
  -- The outcome does not depend on the limit, so that it cannot name two of them.
  have ho : ∀ limit, (o.map fun a => (a, left - k)) = .error (.callLimit limit) := by
    intro limit
    rw [← h limit, hF limit left, if_pos (Nat.le_of_not_lt hle)]
  have h01 := (ho 0).symm.trans (ho 1)
  cases h01

theorem Costs.le {F : Limited α} {j k : Nat} {o o' : Except EvalError α} (hF : Costs F k o)
    (hF' : Costs F j o') : j ≤ k := by
  by_contra hlt
  have hex : ∀ limit, F limit k = .error (.callLimit limit) := by
    intro limit
    rw [hF' limit k, if_neg hlt]
  exact Nat.lt_irrefl k (hF.lt_of_exceeds hex)

theorem Costs.outcome {F : Limited α} {k limit : Nat} {o : Except EvalError α} (hF : Costs F k o)
    (hk : k ≤ limit) : (F limit limit).map Prod.fst = o := by
  rw [hF limit limit, if_pos hk]
  cases o <;> rfl

/-- Two computations have the same outcome when each has the limit to itself. -/
theorem Costs.outcome_apart {F : Limited α} {G : α → Limited β} {j k limit : Nat}
    {o : Except EvalError α} {o' : Except EvalError β} (hF : Costs F j o)
    (h : Costs (F.andThen G) k o') (hk : k ≤ limit) :
    ((F limit limit).map Prod.fst >>= fun a => (G a limit limit).map Prod.fst) = o' := by
  cases o with
  | error e =>
    have he : Costs (F.andThen G) j (.error e) := hF.andThen_error
    have hj : j ≤ limit := Nat.le_trans (h.le he) hk
    rw [hF.outcome hj, error_bind, ← h.outcome hk, he.outcome hj]
  | ok a =>
    rw [hF.andThen_eq] at h
    have hjk : j ≤ k := by
      by_contra hlt
      have hex : ∀ limit, (G a).charge j limit k = .error (.callLimit limit) :=
        fun limit => if_neg hlt
      exact Nat.lt_irrefl k (h.lt_of_exceeds hex)
    obtain ⟨rest, rfl⟩ := Nat.exists_eq_add_of_le' hjk
    rw [hF.outcome (Nat.le_trans hjk hk), ok_bind]
    exact (costs_charge_iff.mp h).outcome (Nat.le_of_add_right_le hk)

namespace Machine

variable [Host ν]

def runFrom (globals : Env ν) (control : Control ν) (frames : List (Frame ν)) :
    Limited (Value ν) :=
  fun limit left => run ⟨globals, limit⟩ ⟨control, frames, left⟩

variable {globals : Env ν} {f : Value ν} {args : List (Value ν)}

theorem costs_call_of_error {e : EvalError} (h : f.react args = .error e)
    (frames : List (Frame ν)) : Costs (runFrom globals (.call f args) frames) 1 (.error e) := by
  intro limit left
  cases left with
  | zero => exact run_call_zero _ frames f args
  | succ left =>
    rw [if_pos (Nat.le_add_left 1 left)]
    exact run_call_of_error _ h

theorem costs_call_of_yield {v : Value ν} (h : f.react args = .ok (.yield v [])) :
    Costs (runFrom globals (.call f args) []) 1 (.ok v) := by
  intro limit left
  cases left with
  | zero => exact run_call_zero _ [] f args
  | succ left =>
    rw [if_pos (Nat.le_add_left 1 left)]
    exact (run_call_of_yield _ h).trans (run_ret_nil _ left v)

/-- Arguments that are left over make a call after the one that leaves them. -/
theorem runFrom_call_of_leftover {v : Value ν} {rest : List (Value ν)} (hne : rest ≠ [])
    (h : f.react args = .ok (.yield v rest)) (frames : List (Frame ν)) :
    runFrom globals (.call f args) frames = (runFrom globals (.call v rest) frames).charge 1 := by
  funext limit left
  cases left with
  | zero => exact run_call_zero _ frames f args
  | succ left =>
    rw [Limited.charge_add]
    exact run_call_of_leftover _ hne h

/-- A run depends on a call by what comes of it. -/
theorem runFrom_call_congr {g : Value ν} {bs : List (Value ν)} (h : f.react args = g.react bs)
    (frames : List (Frame ν)) :
    runFrom globals (.call f args) frames = runFrom globals (.call g bs) frames := by
  funext limit left
  cases left with
  | zero => exact (run_call_zero _ frames f args).trans (run_call_zero _ frames g bs).symm
  | succ left => exact run_congr _ (by simp only [step, h])

def callTwice (globals : Env ν) (f : Value ν) (xs ys : List (Value ν)) : Limited (Value ν) :=
  (runFrom globals (.call f xs) []).andThen fun w => runFrom globals (.call w ys) []

end Machine

section

variable [Host ν] {f : Native ν} {received xs ys : List (Value ν)}

/-- It makes no difference whether a native has received arguments before or gets them now, as long
as it gets some. -/
theorem Value.react_received (hy : ys ≠ []) :
    (native f (received ++ xs)).react ys = (native f received).react (xs ++ ys) := by
  have hne : xs ++ ys ≠ [] := List.append_ne_nil_of_right_ne_nil xs hy
  by_cases hlt : (received ++ xs ++ ys).length < f.arity
  · have hlt' : (received ++ (xs ++ ys)).length < f.arity := by rwa [← List.append_assoc]
    rw [react_of_lt hy hlt, react_of_lt hne hlt', List.append_assoc]
  · obtain ⟨taken, rest, hcut, hlen⟩ := exists_taken (Nat.le_of_not_lt hlt)
    have hcut' : received ++ (xs ++ ys) = taken ++ rest := by rw [← List.append_assoc, hcut]
    rw [react_of_append hy hcut hlen, react_of_append hne hcut' hlen]

theorem costs_native_of_lt (globals : Env ν) (hx : xs ≠ [])
    (hlt : received.length + xs.length < f.arity) :
    Costs (runFrom globals (.call (.native f received) xs) []) 1
      (.ok (.native f (received ++ xs))) :=
  costs_call_of_yield (Value.react_of_lt hx (by rwa [List.length_append]))

theorem costs_native_of_eq (globals : Env ν) (hx : xs ≠ [])
    (heq : received.length + xs.length = f.arity) :
    Costs (runFrom globals (.call (.native f received) xs) []) 1 (f.run (received ++ xs)) := by
  have hreact := Value.react_of_append hx (List.append_nil (received ++ xs)).symm
    (by rwa [List.length_append])
  cases hrun : f.run (received ++ xs) with
  | error e =>
    rw [hrun] at hreact
    exact costs_call_of_error hreact []
  | ok w =>
    rw [hrun] at hreact
    exact costs_call_of_yield hreact

/-- Arguments that do not fill a native cost a call of their own. -/
theorem callTwice_of_lt (globals : Env ν) (hx : xs ≠ []) (hy : ys ≠ [])
    (hlt : received.length + xs.length < f.arity) :
    callTwice globals (.native f received) xs ys =
      (runFrom globals (.call (.native f received) (xs ++ ys)) []).charge 1 := by
  rw [callTwice, (costs_native_of_lt globals hx hlt).andThen_eq,
    runFrom_call_congr (Value.react_received hy) []]

/-- Arguments that fill a native cost the call that runs it, with or without others after them. -/
theorem callTwice_of_eq (globals : Env ν) (hx : xs ≠ []) (hy : ys ≠ [])
    (heq : received.length + xs.length = f.arity) :
    callTwice globals (.native f received) xs ys =
      runFrom globals (.call (.native f received) (xs ++ ys)) [] := by
  have hfirst := costs_native_of_eq globals hx heq
  have hwhole : (Value.native f received).react (xs ++ ys) =
      f.run (received ++ xs) >>= fun v => .ok (.yield v ys) :=
    Value.react_of_append (List.append_ne_nil_of_right_ne_nil xs hy) (List.append_assoc ..).symm
      (by rwa [List.length_append])
  cases hrun : f.run (received ++ xs) with
  | error e =>
    rw [hrun] at hfirst hwhole
    exact hfirst.andThen_error.ext (costs_call_of_error hwhole [])
  | ok w =>
    rw [hrun] at hfirst hwhole
    rw [callTwice, hfirst.andThen_eq, runFrom_call_of_leftover hy hwhole []]

end

/-- A call of a native can be split where the first arguments at most fill it. The two calls come to
what the one comes to, within one limit and with a limit for each. They make one call more where the
first arguments do not fill the native, and as many where they do. -/
theorem native_call_splits [Host ν] {f : Native ν} {received xs ys : List (Value ν)}
    (globals : Env ν) (hx : xs ≠ []) (hy : ys ≠ [])
    (hle : received.length + xs.length ≤ f.arity) :
    let v := Value.native f received
    let whole := runFrom globals (.call v (xs ++ ys)) []
    let extra := if received.length + xs.length < f.arity then 1 else 0
    callTwice globals v xs ys = whole.charge extra ∧
    (∀ k o, Costs whole k o ↔ Costs (callTwice globals v xs ys) (k + extra) o) ∧
    ∀ k o, Costs whole k o → ∀ limit ≥ k + extra,
      Interpreter.apply ⟨globals, limit⟩ v (xs ++ ys) = o ∧
      (Interpreter.apply ⟨globals, limit⟩ v xs >>= fun w =>
        Interpreter.apply ⟨globals, limit⟩ w ys) = o := by
  intro v whole extra
  have hsplit : callTwice globals v xs ys = whole.charge extra := by
    by_cases hlt : received.length + xs.length < f.arity
    · simp only [extra, if_pos hlt]
      exact callTwice_of_lt globals hx hy hlt
    · simp only [extra, if_neg hlt]
      exact callTwice_of_eq globals hx hy (by omega)
  -- The first call costs one call however it ends, so that the second can have the limit to itself.
  have hfirst : ∃ o, Costs (runFrom globals (.call v xs) []) 1 o := by
    rcases Nat.lt_or_eq_of_le hle with hlt | heq
    · exact ⟨_, costs_native_of_lt globals hx hlt⟩
    · exact ⟨_, costs_native_of_eq globals hx heq⟩
  have hcosts : ∀ k o, Costs whole k o ↔ Costs (callTwice globals v xs ys) (k + extra) o := by
    intro k o
    rw [hsplit]
    exact costs_charge_iff.symm
  refine ⟨hsplit, hcosts, ?_⟩
  intro k o hk limit hlimit
  obtain ⟨o₁, hone⟩ := hfirst
  exact ⟨hk.outcome (Nat.le_of_add_right_le hlimit),
    hone.outcome_apart ((hcosts k o).mp hk) hlimit⟩

/-- The sum of three arguments is there after one call, or after two if one argument comes later.
What gives a constant takes two calls to give it, with all arguments at once or one by one. -/
theorem native_call_splits_stock :
    let sum : Value Stock := .native (.host .sum3) [.int 1]
    let konst : Value Stock := .native (.host .konst) []
    Costs (runFrom [] (.call sum [.int 2, .int 3]) []) 1 (.ok (.int 6)) ∧
    Costs (callTwice [] sum [.int 2] [.int 3]) 2 (.ok (.int 6)) ∧
    Costs (runFrom [] (.call konst [.int 7, .int 8]) []) 2 (.ok (.int 7)) ∧
    Costs (callTwice [] konst [.int 7] [.int 8]) 2 (.ok (.int 7)) := by
  intro sum konst
  let seven : Value Stock := .native (.host (.constant (.int 7))) []
  have hsum : Costs (runFrom [] (.call sum [.int 2, .int 3]) []) 1 (.ok (.int 6)) :=
    costs_native_of_eq [] (by simp) rfl
  have hseven : Costs (runFrom [] (.call seven [.int 8]) []) 1 (.ok (.int 7)) :=
    costs_native_of_eq [] (by simp) rfl
  have hkonst : Costs (runFrom [] (.call konst [.int 7, .int 8]) []) 2 (.ok (.int 7)) := by
    have hreact : konst.react [.int 7, .int 8] = .ok (.yield seven [.int 8]) := rfl
    rw [runFrom_call_of_leftover (by simp) hreact []]
    exact costs_charge_iff.mpr hseven
  obtain ⟨-, hlt, -⟩ := @native_call_splits Stock _ (.host .sum3) [.int 1] [.int 2] [.int 3] []
    (by simp) (by simp) (by decide)
  obtain ⟨-, heq, -⟩ := @native_call_splits Stock _ (.host .konst) [] [.int 7] [.int 8] []
    (by simp) (by simp) (by decide)
  exact ⟨hsum, (hlt 1 _).mp hsum, hkonst, (heq 2 _).mp hkonst⟩

end Curried
