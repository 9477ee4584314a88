import Curried.Proofs.Counting
import Curried.Proofs.Related

namespace Curried

open Machine

variable {ν α β : Type}

def Unlimited (o : Except EvalError α) : Prop := ∀ n, o ≠ .error (.callLimit n)

theorem unlimited_ok (a : α) : Unlimited (.ok a) := fun _ h => by cases h

theorem unlimited_error_iff {e : EvalError} :
    Unlimited (.error e : Except EvalError α) ↔ ∀ n, e ≠ .callLimit n := by
  simp [Unlimited]

theorem Unlimited.bind {o : Except EvalError α} {f : α → Except EvalError β} (ho : Unlimited o)
    (hf : ∀ a, Unlimited (f a)) : Unlimited (o >>= f) := by
  cases o with
  | ok a => exact hf a
  | error e => exact unlimited_error_iff.mpr (unlimited_error_iff.mp ho)

theorem unlimited_toInt [Signature ν] (v : Value ν) : Unlimited v.toInt := by
  intro n h
  cases v <;> cases h

theorem unlimited_toBoolean [Signature ν] (v : Value ν) : Unlimited v.toBoolean := by
  apply (unlimited_toInt v).bind
  intro n k h
  split at h
  · cases h
  split at h <;> cases h

theorem unlimited_mapM_toInt [Signature ν] (vs : List (Value ν)) :
    Unlimited (vs.mapM Value.toInt) := by
  induction vs with
  | nil => exact unlimited_ok []
  | cons v vs ih =>
    rw [List.mapM_cons]
    exact (unlimited_toInt v).bind fun n => ih.bind fun ns => unlimited_ok (n :: ns)

theorem Builtin.unlimited_run [Signature ν] (f : Builtin) (args : List (Value ν)) :
    Unlimited (f.run args) := by
  rw [Builtin.run_eq]
  split
  · exact (unlimited_mapM_toInt args).bind fun ns => unlimited_ok _
  · exact fun n h => by cases h

def Host.Unlimited (ν : Type) [Host ν] : Prop :=
  ∀ (f : ν) (args : List (Value ν)), Curried.Unlimited (Host.run f args)

theorem Stock.unlimited_run : Host.Unlimited Stock := by
  intro f args
  change Unlimited (Stock.run f args)
  unfold Stock.run
  split
  case h_4 a b c =>
    exact (unlimited_toInt a).bind fun _ => (unlimited_toInt b).bind fun _ =>
      (unlimited_toInt c).bind fun _ => unlimited_ok _
  case h_5 c a b => exact (unlimited_toInt c).bind fun _ => unlimited_ok _
  all_goals exact fun n h => by cases h

theorem Value.unlimited_react [Host ν] (hν : Host.Unlimited ν) (f : Value ν)
    (args : List (Value ν)) : Unlimited (f.react args) := by
  cases f with
  | int n => exact fun n h => by cases h
  | closure params body env =>
    intro n h
    simp only [react] at h
    split at h <;> cases h
  | native f received =>
    have hrun : ∀ vs, Unlimited (f.run vs) := by
      cases f with
      | builtin f => exact f.unlimited_run
      | host f => exact hν f
    simp only [react]
    split
    · exact fun n h => by cases h
    split
    · exact unlimited_ok _
    · exact (hrun _).bind fun v => unlimited_ok _

abbrev Metered (α : Type) := UInt64 → UInt64 → Option (Except EvalError (α × UInt64))

namespace Metered

def andThen (F : Metered α) (G : α → Metered β) : Metered β := fun limit calls =>
  (F limit calls).bind fun
    | .error e => some (.error e)
    | .ok (a, calls) => G a limit calls

def outcome (F : Metered α) (limit : UInt64) : Option (Except EvalError α) :=
  (F limit 0).map (Except.map Prod.fst)

/-- A computation makes `k` calls and comes to `o`, unless this exceeds the limit. The greatest
limit is never exceeded. -/
structure Counts (F : Metered α) (k : Nat) (o : Except EvalError α) : Prop where
  within : ∀ limit calls, calls.toNat + k ≤ limit.toNat ∨ limit.toNat + 1 = UInt64.size →
    F limit calls = some (o.map fun a => (a, calls + .ofNat k))
  beyond : ∀ limit calls, limit.toNat + 1 < UInt64.size → calls ≤ limit →
    limit.toNat < calls.toNat + k → F limit calls = some (.error (.callLimit limit.toNat))

structure Endless (F : Metered α) : Prop where
  below : ∀ limit calls, limit.toNat + 1 < UInt64.size → calls ≤ limit →
    F limit calls = some (.error (.callLimit limit.toNat))
  top : ∀ limit calls, limit.toNat + 1 = UInt64.size → F limit calls = none

variable {a : α} {j k : Nat} {e : EvalError}

theorem Counts.andThen_error {F : Metered α} {G : α → Metered β} (hF : F.Counts k (.error e)) :
    (F.andThen G).Counts k (.error e) where
  within limit calls hk := by
    rw [andThen, hF.within limit calls hk]
    rfl
  beyond limit calls hl hle hk := by
    rw [andThen, hF.beyond limit calls hl hle hk]
    rfl

theorem Counts.andThen {F : Metered α} {G : α → Metered β} {o : Except EvalError β}
    (hF : F.Counts k (.ok a)) (hG : (G a).Counts j o) : (F.andThen G).Counts (k + j) o where
  within limit calls h := by
    obtain ⟨hfirst, hsecond⟩ := room_of_add h
    rw [Metered.andThen, hF.within limit calls hfirst]
    refine (hG.within limit _ hsecond).trans ?_
    rw [UInt64.ofNat_add, UInt64.add_assoc]
  beyond limit calls hl hle hk := by
    by_cases hfirst : calls.toNat + k ≤ limit.toNat
    · have hadd : (calls + .ofNat k).toNat = calls.toNat + k := toNat_add_ofNat (by omega)
      rw [Metered.andThen, hF.within limit calls (.inl hfirst)]
      apply hG.beyond limit _ hl
      · rwa [UInt64.le_iff_toNat_le, hadd]
      · omega
    · rw [Metered.andThen, hF.beyond limit calls hl hle (Nat.not_le.mp hfirst)]
      rfl

theorem Counts.andThen_endless {F : Metered α} {G : α → Metered β} (hF : F.Counts k (.ok a))
    (hG : (G a).Endless) : (F.andThen G).Endless where
  below limit calls hl hle := by
    by_cases hfirst : calls.toNat + k ≤ limit.toNat
    · have hadd : (calls + .ofNat k).toNat = calls.toNat + k := toNat_add_ofNat (by omega)
      rw [Metered.andThen, hF.within limit calls (.inl hfirst)]
      apply hG.below limit _ hl
      rwa [UInt64.le_iff_toNat_le, hadd]
    · rw [Metered.andThen, hF.beyond limit calls hl hle (Nat.not_le.mp hfirst)]
      rfl
  top limit calls hl := by
    rw [Metered.andThen, hF.within limit calls (.inr hl)]
    exact hG.top limit _ hl

theorem Endless.andThen {F : Metered α} {G : α → Metered β} (hF : F.Endless) :
    (F.andThen G).Endless where
  below limit calls hl hle := by
    rw [Metered.andThen, hF.below limit calls hl hle]
    rfl
  top limit calls hl := by
    rw [Metered.andThen, hF.top limit calls hl]
    rfl

end Metered

structure Threshold (outcome : UInt64 → Option (Except EvalError α)) (k : Nat)
    (o : Except EvalError α) : Prop where
  below : ∀ limit, limit.toNat < k → limit.toNat + 1 < UInt64.size →
    outcome limit = some (.error (.callLimit limit.toNat))
  above : ∀ limit, k ≤ limit.toNat → outcome limit = some o
  top : ∀ limit, limit.toNat + 1 = UInt64.size → outcome limit = some o
  unlimited : Unlimited o

/-- Where calls are made as `made` says, their number is a threshold. Where it says nothing, every
limit is exceeded but the greatest, under which there is no outcome. -/
def Sharp (outcome : UInt64 → Option (Except EvalError α))
    (made : Nat → Except EvalError α → Prop) : Prop :=
  (∃ k o, made k o ∧ Threshold outcome k o) ∨
    (¬ ∃ k o, made k o) ∧
    (∀ limit, limit.toNat + 1 < UInt64.size →
      outcome limit = some (.error (.callLimit limit.toNat))) ∧
    ∀ limit, limit.toNat + 1 = UInt64.size → outcome limit = none

section

variable {outcome : UInt64 → Option (Except EvalError α)} {made : Nat → Except EvalError α → Prop}
  {f : α → Except EvalError β} {k : Nat} {o : Except EvalError α}

theorem Threshold.bind (h : Threshold outcome k o) (hf : ∀ a, Unlimited (f a)) :
    Threshold (fun limit => (outcome limit).map (· >>= f)) k (o >>= f) where
  below limit hk hl := by
    rw [h.below limit hk hl]
    rfl
  above limit hk := by
    rw [h.above limit hk]
    rfl
  top limit hl := by
    rw [h.top limit hl]
    rfl
  unlimited := h.unlimited.bind hf

theorem Sharp.bind (h : Sharp outcome made) (hf : ∀ a, Unlimited (f a)) :
    Sharp (fun limit => (outcome limit).map (· >>= f)) fun k o' =>
      ∃ o, made k o ∧ o' = o >>= f := by
  rcases h with ⟨k, o, hk, ht⟩ | ⟨hno, hbelow, htop⟩
  · exact .inl ⟨k, o >>= f, ⟨o, hk, rfl⟩, ht.bind hf⟩
  · refine .inr ⟨fun ⟨k, _, o, hk, _⟩ => hno ⟨k, o, hk⟩, fun limit hl => ?_, fun limit hl => ?_⟩
    · exact congrArg (Option.map (· >>= f)) (hbelow limit hl)
    · exact congrArg (Option.map (· >>= f)) (htop limit hl)

theorem Metered.Counts.threshold {F : Metered α} (h : F.Counts k o) (ho : Unlimited o) :
    Threshold F.outcome k o where
  below limit hk hl := by
    rw [outcome, h.beyond limit 0 hl UInt64.zero_le (by simpa using hk)]
    rfl
  above limit hk := by
    rw [outcome, h.within limit 0 (.inl (by simpa using hk))]
    cases o <;> rfl
  top limit hl := by
    rw [outcome, h.within limit 0 (.inr hl)]
    cases o <;> rfl
  unlimited := ho

theorem Metered.Endless.sharp {F : Metered α} (h : F.Endless) (hno : ¬ ∃ k o, made k o) :
    Sharp F.outcome made := by
  refine .inr ⟨hno, fun limit hl => ?_, fun limit hl => ?_⟩
  · rw [outcome, h.below limit 0 hl UInt64.zero_le]
    rfl
  · rw [outcome, h.top limit 0 hl]
    rfl

end

section

variable [Host ν] {globals : Env ν} {control : Control ν} {frames : List (Frame ν)} {k : Nat}
  {o : Except EvalError (Value ν)}

theorem unlimited_move (hν : Host.Unlimited ν) (globals : Env ν) (control : Control ν)
    (frames : List (Frame ν)) :
    Unlimited (move globals control frames) := by
  match control, frames with
  | .eval (.int n) env, frames => exact unlimited_ok _
  | .eval (.name x) env, frames =>
    simp only [move, step]
    cases (env.lookup x).or (globals.lookup x) with
    | none => exact fun n h => by cases h
    | some v => exact unlimited_ok _
  | .eval (.lam params body) env, frames => exact unlimited_ok _
  | .eval (.call f args) env, frames => exact unlimited_ok _
  | .ret v, [] => exact unlimited_ok _
  | .ret v, .callee args env :: frames => exact unlimited_ok _
  | .ret v, .argument f done todo env :: frames => exact unlimited_ok _
  | .ret v, .leftover args :: frames => exact unlimited_ok _
  | .call f args, frames =>
    have hr := f.unlimited_react hν args
    simp only [move, step]
    cases h : f.react args with
    | error e =>
      rw [h] at hr
      exact unlimited_error_iff.mpr (unlimited_error_iff.mp hr)
    | ok reaction =>
      cases reaction with
      | enter body env => exact unlimited_ok _
      | yield v rest => cases rest <;> exact unlimited_ok _

/-- The outcome of a run is no call limit if no function of the host reports one. -/
theorem unlimited_of_comesTo (hν : Host.Unlimited ν) (h : ComesTo globals control frames k o) :
    Unlimited o := by
  induction h with
  | @fail control frames e he =>
    have hm := unlimited_move hν globals control frames
    rw [he] at hm
    exact unlimited_error_iff.mpr (unlimited_error_iff.mp hm)
  | stop hv => exact unlimited_ok _
  | go hg _ ih => exact ih

variable (globals)

def runMetered (control : Control ν) (frames : List (Frame ν)) : Metered (Value ν) :=
  fun limit calls => Evaluator.run ⟨globals, limit⟩ ⟨control, frames, calls⟩

variable {globals}

theorem counts_of_comesTo (h : ComesTo globals control frames k o) :
    (runMetered globals control frames).Counts k o where
  within _ _ hk := Evaluator.run_of_comesTo h hk
  beyond _ _ hl hle hk := Evaluator.run_of_limit_lt hl hle h hk

theorem endless_of_not_comesTo (h : ¬ ∃ k o, ComesTo globals control frames k o) :
    (runMetered globals control frames).Endless where
  below limit calls hl hle := by
    obtain ⟨r, hr, -⟩ := Evaluator.exists_run (R := ⟨globals, limit⟩)
      (s := ⟨control, frames, calls⟩) hl hle
    rcases Evaluator.comesTo_of_run hr with ⟨k, hk⟩ | ⟨rfl, -⟩
    · exact absurd ⟨k, _, hk⟩ h
    · exact hr
  top limit calls hl := Evaluator.run_eq_none hl h

theorem sharp_run (hν : Host.Unlimited ν) (control : Control ν) :
    Sharp (runMetered globals control []).outcome (ComesTo globals control []) := by
  by_cases h : ∃ k o, ComesTo globals control [] k o
  · obtain ⟨k, o, hk⟩ := h
    exact .inl ⟨k, o, hk, (counts_of_comesTo hk).threshold (unlimited_of_comesTo hν hk)⟩
  · exact (endless_of_not_comesTo h).sharp h

/-- A value is called with `first`, and the result with `second`. Both calls together make `k`
calls, and come to `o`. -/
inductive Reads (globals : Env ν) (first second v : Value ν) :
    Nat → Except EvalError (Value ν) → Prop
  | fail {k : Nat} {e : EvalError} :
      ComesTo globals (.call v [first]) [] k (.error e) → Reads globals first second v k (.error e)
  | both {j k : Nat} {w : Value ν} {o : Except EvalError (Value ν)} :
      ComesTo globals (.call v [first]) [] k (.ok w) → ComesTo globals (.call w [second]) [] j o →
      Reads globals first second v (k + j) o

theorem applyTwice_eq_outcome (globals : Env ν) (limit : UInt64) (v first second : Value ν) :
    Evaluator.applyTwice ⟨globals, limit⟩ v first second =
      ((runMetered globals (.call v [first]) []).andThen
        fun w => runMetered globals (.call w [second]) []).outcome limit := by
  rw [Evaluator.applyTwice, Metered.outcome, Metered.andThen, runMetered]
  cases Evaluator.run ⟨globals, limit⟩ ⟨.call v [first], [], 0⟩ with
  | none => rfl
  | some r => cases r <;> rfl

theorem sharp_applyTwice (hν : Host.Unlimited ν) (first second v : Value ν) :
    Sharp (fun limit => Evaluator.applyTwice ⟨globals, limit⟩ v first second)
      (Reads globals first second v) := by
  simp only [applyTwice_eq_outcome]
  by_cases hfirst : ∃ k o, ComesTo globals (.call v [first]) [] k o
  · obtain ⟨k, o, hk⟩ := hfirst
    have hcounts := counts_of_comesTo hk
    have hu := unlimited_of_comesTo hν hk
    cases o with
    | error e => exact .inl ⟨k, .error e, .fail hk, hcounts.andThen_error.threshold hu⟩
    | ok w =>
      by_cases hsecond : ∃ j o, ComesTo globals (.call w [second]) [] j o
      · obtain ⟨j, o, hj⟩ := hsecond
        exact .inl ⟨k + j, o, .both hk hj,
          (hcounts.andThen (counts_of_comesTo hj)).threshold (unlimited_of_comesTo hν hj)⟩
      · apply (hcounts.andThen_endless (endless_of_not_comesTo hsecond)).sharp
        rintro ⟨_, _, hr⟩
        cases hr with
        | fail hk' => cases (hk.unique hk').2
        | both hk' hj =>
          cases (hk.unique hk').2
          exact hsecond ⟨_, _, hj⟩
  · apply (endless_of_not_comesTo hfirst).andThen.sharp
    rintro ⟨_, _, hr⟩
    cases hr with
    | fail hk => exact hfirst ⟨_, _, hk⟩
    | both hk _ => exact hfirst ⟨_, _, hk⟩

end

/-- The number of calls made is a threshold for the limit of evaluating an expression, of calling a
value, and of reading a Church numeral or boolean, where both calls count, as long as no function of
the host reports a limit itself. The greatest limit stops nothing. -/
theorem limit_is_threshold [Host ν] (hν : Host.Unlimited ν) (globals : Env ν) :
    (∀ e, Sharp (fun limit => Evaluator.evaluate ⟨globals, limit⟩ e)
      (ComesTo globals (.eval e []) [])) ∧
    (∀ f args, Sharp (fun limit => Evaluator.apply ⟨globals, limit⟩ f args)
      (ComesTo globals (.call f args) [])) ∧
    (∀ v, Sharp (fun limit => Evaluator.readNumeral ⟨globals, limit⟩ v)
      fun k n => ∃ o, Reads globals (.ofBuiltin .inc) (.int 0) v k o ∧ n = o >>= Value.toInt) ∧
    ∀ v, Sharp (fun limit => Evaluator.readBoolean ⟨globals, limit⟩ v)
      fun k b => ∃ o, Reads globals (.int 1) (.int 0) v k o ∧ b = o >>= Value.toBoolean := by
  refine ⟨fun e => ?_, fun f args => ?_, fun v => ?_, fun v => ?_⟩
  · exact sharp_run hν (.eval e [])
  · exact sharp_run hν (.call f args)
  · exact (sharp_applyTwice hν (.ofBuiltin .inc) (.int 0) v).bind unlimited_toInt
  · exact (sharp_applyTwice hν (.int 1) (.int 0) v).bind unlimited_toBoolean

/-- The numeral one takes one call with the increment, and then two: with zero, and of the
increment. -/
theorem limit_is_threshold_one :
    let one : Value Stock := .closure ["f"] (.lam ["x"] (.call (.name "f") [.name "x"])) []
    Host.Unlimited Stock ∧
      Threshold (fun limit => Evaluator.readNumeral ⟨[], limit⟩ one) 3 (.ok 1) := by
  intro one
  have htwo : Evaluator.readNumeral ⟨[], 2⟩ one = some (.error (.callLimit 2)) := by
    rw [Evaluator.readNumeral_eq (by decide)]
    exact congrArg some (by cbv)
  have hthree : Evaluator.readNumeral ⟨[], 3⟩ one = some (.ok 1) := by
    rw [Evaluator.readNumeral_eq (by decide)]
    exact congrArg some (by cbv)
  refine ⟨Stock.unlimited_run, ?_⟩
  obtain ⟨-, -, hread, -⟩ := limit_is_threshold Stock.unlimited_run []
  rcases hread one with ⟨k, n, -, hk⟩ | ⟨-, hbelow, -⟩
  · have hlow : 2 < k := by
      by_contra hle
      have hn := (hk.above 2 (Nat.not_lt.mp hle)).symm.trans htwo
      exact hk.unlimited 2 (Option.some.inj hn)
    have hhigh : k ≤ 3 := by
      by_contra hlt
      cases (hk.below 3 (Nat.not_le.mp hlt) (by decide)).symm.trans hthree
    obtain rfl : k = 3 := by omega
    obtain rfl : n = .ok 1 := Option.some.inj ((hk.above 3 (Nat.le_refl 3)).symm.trans hthree)
    exact hk
  · cases (hbelow 3 (by decide)).symm.trans hthree

/-- A function that calls its argument with itself, called with itself, exceeds every limit but the
greatest, which it does not exceed. -/
theorem limit_is_no_threshold_of_self_call :
    let outcome : UInt64 → Option (Except EvalError (Value Stock)) := fun limit =>
      Evaluator.evaluate ⟨[], limit⟩ (.call (.selfCall "x") [.selfCall "x"])
    (∀ limit, limit.toNat + 1 < UInt64.size →
      outcome limit = some (.error (.callLimit limit.toNat))) ∧
    outcome 18446744073709551615 = none := by
  intro outcome
  have hendless : (runMetered ([] : Env Stock)
      (.eval (.call (.selfCall "x") [.selfCall "x"]) []) []).Endless :=
    endless_of_not_comesTo fun ⟨_, _, h⟩ => not_comesTo_eval_selfCall "x" "x" h
  refine ⟨fun limit hl => ?_, ?_⟩
  · exact congrArg (Option.map (Except.map Prod.fst)) (hendless.below limit 0 hl UInt64.zero_le)
  · exact congrArg (Option.map (Except.map Prod.fst)) (hendless.top _ 0 rfl)

end Curried
