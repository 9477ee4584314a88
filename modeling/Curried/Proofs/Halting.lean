import Curried.Proofs.Counting

namespace Curried

variable {ν : Type}

namespace Evaluator

variable [Host ν] {R : Evaluator ν}

def runFor (R : Evaluator ν) : Nat → State ν → Option (Except EvalError (Value ν × UInt64))
  | 0, _ => none
  | n + 1, s =>
    match R.step s with
    | .error e => some (.error e)
    | .ok (.stop v, calls) => some (.ok (v, calls))
    | .ok (.go control frames, calls) => R.runFor n ⟨control, frames, calls⟩

/-- A run has an end exactly if it comes to it after finitely many steps. -/
theorem run_eq_some_iff {s : State ν} {r : Except EvalError (Value ν × UInt64)} :
    R.run s = some r ↔ ∃ n, R.runFor n s = some r := by
  constructor
  · refine run.partial_correctness R (fun s r => ∃ n, R.runFor n s = some r) ?_ s r
    intro run ih s r h
    cases hs : R.step s with
    | error e =>
      rw [hs] at h
      exact ⟨1, by rw [runFor, hs]; exact h⟩
    | ok p =>
      obtain ⟨m, calls⟩ := p
      rw [hs] at h
      cases m with
      | stop v => exact ⟨1, by rw [runFor, hs]; exact h⟩
      | go control frames =>
        obtain ⟨n, hn⟩ := ih _ _ h
        exact ⟨n + 1, by rw [runFor, hs]; exact hn⟩
  · rintro ⟨n, h⟩
    induction n generalizing s with
    | zero => cases h
    | succ n ih =>
      rw [runFor] at h
      rw [run]
      cases hs : R.step s with
      | error e =>
        rw [hs] at h
        exact h
      | ok p =>
        obtain ⟨m, calls⟩ := p
        rw [hs] at h
        cases m with
        | stop v => exact h
        | go control frames => exact ih h

end Evaluator

open Evaluator

/-- If some count is above the limit, every step makes a state smaller in a well-founded order, as
long as the limit has not been exceeded. So every run ends after finitely many steps, and there is
an outcome of evaluating an expression, calling a value and reading a Church numeral or boolean. -/
theorem evaluation_terminates [Host ν] {R : Evaluator ν} (hR : R.limit.toNat + 1 < UInt64.size) :
    (WellFounded fun t s : State ν => Prod.Lex (· < ·) (· < ·) (R.measure t) (R.measure s)) ∧
    (∀ s control frames calls, s.calls ≤ R.limit →
      R.step s = .ok (.go control frames, calls) → calls ≤ R.limit ∧
        Prod.Lex (· < ·) (· < ·) (R.measure ⟨control, frames, calls⟩) (R.measure s)) ∧
    (∀ s, s.calls ≤ R.limit → ∃ n r, R.runFor n s = some r ∧ R.run s = some r) ∧
    (∀ e, (R.evaluate e).isSome) ∧ (∀ f args, (R.apply f args).isSome) ∧
    (∀ v, (R.readNumeral v).isSome) ∧ ∀ v, (R.readBoolean v).isSome := by
  refine ⟨InvImage.wf R.machine Machine.wellFounded_measure, ?_, ?_, ?_, ?_, ?_, ?_⟩
  · intro s control frames calls hs h
    have hstep := machine_step hR hs
    rw [h] at hstep
    exact ⟨le_of_step hs h, Machine.measure_lt_of_step hstep⟩
  · intro s hs
    obtain ⟨r, hr, -⟩ := exists_run hR hs
    obtain ⟨n, hn⟩ := run_eq_some_iff.mp hr
    exact ⟨n, r, hn, hr⟩
  · intro e
    rw [evaluate_eq hR]
    rfl
  · intro f args
    rw [apply_eq hR]
    rfl
  · intro v
    rw [readNumeral_eq hR]
    rfl
  · intro v
    rw [readBoolean_eq hR]
    rfl

/-- A function that calls its argument with itself, called with itself. The limit ends it. -/
theorem evaluation_terminates_self_call :
    let R : Evaluator Stock := ⟨[], 2⟩
    let loop : Expr := .call (.selfCall "x") [.selfCall "x"]
    R.limit.toNat + 1 < UInt64.size ∧ R.evaluate loop = some (.error (.callLimit 2)) ∧
      ∃ n, R.runFor n ⟨.eval loop [], [], 0⟩ = some (.error (.callLimit 2)) := by
  intro R loop
  have hR : R.limit.toNat + 1 < UInt64.size := by decide
  have he : R.evaluate loop = some (.error (.callLimit 2)) := by
    rw [evaluate_eq hR]
    exact congrArg some (by cbv)
  obtain ⟨-, -, hruns, -⟩ := evaluation_terminates hR
  obtain ⟨n, r, hn, hr⟩ := hruns ⟨.eval loop [], [], 0⟩ (by decide)
  have hfirst := he
  rw [evaluate, hr] at hfirst
  obtain rfl := except_map_eq_error_iff.mp (Option.some.inj hfirst)
  exact ⟨hR, he, n, hn⟩

/-- No count is above the greatest limit, so it does not end such calls. -/
theorem self_call_never_ends :
    let R : Evaluator Stock := ⟨[], 18446744073709551615⟩
    let loop : Expr := .call (.selfCall "x") [.selfCall "x"]
    R.evaluate loop = none ∧ ¬ ∃ n r, R.runFor n ⟨.eval loop [], [], 0⟩ = some r := by
  intro R loop
  have hnone : R.run ⟨.eval loop [], [], 0⟩ = none :=
    run_eq_none (by decide) fun ⟨k, o, h⟩ => Machine.not_comesTo_eval_selfCall "x" "x" h
  refine ⟨by rw [evaluate, hnone]; rfl, ?_⟩
  rintro ⟨n, r, hn⟩
  rw [run_eq_some_iff.mpr ⟨n, hn⟩] at hnone
  cases hnone

end Curried
