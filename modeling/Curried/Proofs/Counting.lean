import Curried.Interpreter
import Curried.Proofs.Run
import Mathlib.Order.RelClasses

namespace Curried

variable {ν : Type}

theorem Interpreter.applyTwice_eq [Host ν] (I : Interpreter ν) (callee first second : Value ν) :
    I.applyTwice callee first second =
      (Machine.run I ⟨.call callee [first], [], I.limit⟩ >>= fun p =>
        Machine.run I ⟨.call p.1 [second], [], p.2⟩).map Prod.fst := by
  rw [applyTwice]
  cases Machine.run I ⟨.call callee [first], [], I.limit⟩ with
  | error e => rfl
  | ok p => cases h : Machine.run I ⟨.call p.1 [second], [], p.2⟩ <;> simp [h, Except.map]

namespace Machine

theorem wellFounded_measure :
    WellFounded fun t s : State ν => Prod.Lex (· < ·) (· < ·) t.measure s.measure :=
  InvImage.wf State.measure (WellFounded.prod_lex Nat.lt_wfRel.wf Nat.lt_wfRel.wf)

def Control.cost : Control ν → Nat
  | call .. => 1
  | _ => 0

def Move.leaving (left : Nat) : Move ν → Progress ν
  | stop v => .done v left
  | go control frames => .next ⟨control, frames, left⟩

variable [Host ν]

/-- A step that can pay for its call moves as any other does. -/
theorem step_eq_move (I : Interpreter ν) (control : Control ν) (frames : List (Frame ν))
    (left : Nat) :
    step I ⟨control, frames, left + control.cost⟩ =
      (move I.globals control frames).map (Move.leaving left) := by
  match control, frames with
  | .eval (.int n) env, frames => rfl
  | .eval (.name x) env, frames =>
    simp only [step, move, Control.cost]
    cases (env.lookup x).or (I.globals.lookup x) <;> rfl
  | .eval (.lam params body) env, frames => rfl
  | .eval (.call f args) env, frames => rfl
  | .ret v, [] => rfl
  | .ret v, .callee args env :: frames => cases args <;> rfl
  | .ret v, .argument f done todo env :: frames => cases todo <;> rfl
  | .ret v, .leftover args :: frames => rfl
  | .call f args, frames =>
    simp only [step, move, Control.cost]
    cases f.react args with
    | error e => rfl
    | ok reaction =>
      cases reaction with
      | enter body env => rfl
      | yield v rest => cases rest <;> rfl

theorem exists_move_of_step {I : Interpreter ν} {s : State ν} {p : Progress ν}
    (h : step I s = .ok p) :
    ∃ m left, move I.globals s.control s.frames = .ok m ∧ p = m.leaving left ∧
      left + s.control.cost = s.callsLeft := by
  obtain ⟨control, frames, calls⟩ := s
  by_cases hc : control.cost ≤ calls
  · obtain ⟨left, rfl⟩ := Nat.exists_eq_add_of_le' hc
    rw [step_eq_move] at h
    cases hm : move I.globals control frames with
    | error e => rw [hm] at h; cases h
    | ok m =>
      rw [hm] at h
      cases h
      exact ⟨m, left, rfl, rfl, rfl⟩
  · cases control with
    | call f args =>
      obtain rfl : calls = 0 := Nat.lt_one_iff.mp (Nat.not_le.mp hc)
      cases h
    | _ => exact absurd (Nat.zero_le calls) hc

/-- From a control under frames the machine makes `k` calls, if it may, and comes to `o`. -/
inductive ComesTo (globals : Env ν) :
    Control ν → List (Frame ν) → Nat → Except EvalError (Value ν) → Prop
  | fail {control : Control ν} {frames : List (Frame ν)} {e : EvalError} :
      move globals control frames = .error e →
      ComesTo globals control frames control.cost (.error e)
  | stop {control : Control ν} {frames : List (Frame ν)} {v : Value ν} :
      move globals control frames = .ok (.stop v) →
      ComesTo globals control frames control.cost (.ok v)
  | go {control control' : Control ν} {frames frames' : List (Frame ν)} {k : Nat}
      {o : Except EvalError (Value ν)} :
      move globals control frames = .ok (.go control' frames') →
      ComesTo globals control' frames' k o →
      ComesTo globals control frames (control.cost + k) o

theorem ComesTo.next {globals : Env ν} {control control' : Control ν}
    {frames frames' : List (Frame ν)} {k : Nat} {o : Except EvalError (Value ν)}
    (h : ComesTo globals control frames k o)
    (hm : move globals control frames = .ok (.go control' frames')) :
    ∃ j, k = control.cost + j ∧ ComesTo globals control' frames' j o := by
  cases h with
  | fail he => rw [hm] at he; cases he
  | stop hv => rw [hm] at hv; cases hv
  | go hg hj =>
    rw [hm] at hg
    cases hg
    exact ⟨_, rfl, hj⟩

theorem ComesTo.unique {globals : Env ν} {control : Control ν} {frames : List (Frame ν)}
    {j k : Nat} {o o' : Except EvalError (Value ν)} (h : ComesTo globals control frames k o)
    (h' : ComesTo globals control frames j o') : k = j ∧ o = o' := by
  induction h generalizing j with
  | fail he =>
    cases h' with
    | fail he' => rw [he] at he'; cases he'; exact ⟨rfl, rfl⟩
    | stop hv => rw [he] at hv; cases hv
    | go hg _ => rw [he] at hg; cases hg
  | stop hv =>
    cases h' with
    | fail he => rw [hv] at he; cases he
    | stop hv' => rw [hv] at hv'; cases hv'; exact ⟨rfl, rfl⟩
    | go hg _ => rw [hv] at hg; cases hg
  | go hg _ ih =>
    obtain ⟨i, rfl, hi⟩ := h'.next hg
    obtain ⟨rfl, rfl⟩ := ih hi
    exact ⟨rfl, rfl⟩

theorem run_of_comesTo {I : Interpreter ν} {control : Control ν} {frames : List (Frame ν)} {k : Nat}
    {o : Except EvalError (Value ν)} (h : ComesTo I.globals control frames k o) (left : Nat) :
    run I ⟨control, frames, left + k⟩ = o.map (·, left) := by
  induction h with
  | fail he =>
    apply run_of_error
    rw [step_eq_move, he]
    rfl
  | stop hv =>
    apply run_of_done
    rw [step_eq_move, hv]
    rfl
  | @go control control' frames frames' k o hg _ ih =>
    rw [← ih]
    apply run_of_next
    rw [Nat.add_comm control.cost k, ← Nat.add_assoc, step_eq_move, hg]
    rfl

/-- A run that has a value has made as many calls as are no longer left. -/
theorem comesTo_of_run {I : Interpreter ν} {s : State ν} {v : Value ν} {left : Nat}
    (h : run I s = .ok (v, left)) :
    ∃ k, ComesTo I.globals s.control s.frames k (.ok v) ∧ left + k = s.callsLeft := by
  fun_induction run I s with
  | case1 s e he => cases h
  | case2 s w rest hd =>
    cases h
    obtain ⟨m, left, hm, hp, hleft⟩ := exists_move_of_step hd
    cases m with
    | go control frames => cases hp
    | stop w =>
      cases hp
      exact ⟨_, .stop hm, hleft⟩
  | case3 s t ht ih =>
    obtain ⟨m, left, hm, hp, hleft⟩ := exists_move_of_step ht
    cases m with
    | stop w => cases hp
    | go control frames =>
      cases hp
      obtain ⟨k, hk, hrest⟩ := ih h
      exact ⟨_, .go hm hk, by simp only at hrest; omega⟩

end Machine

theorem Interpreter.evaluate_of_comesTo [Host ν] {globals : Env ν} {e : Expr} {k limit : Nat}
    {o : Except EvalError (Value ν)} (h : Machine.ComesTo globals (.eval e []) [] k o)
    (hk : k ≤ limit) : Interpreter.evaluate ⟨globals, limit⟩ e = o := by
  obtain ⟨left, rfl⟩ := Nat.exists_eq_add_of_le' hk
  rw [evaluate, Machine.run_of_comesTo h]
  cases o <;> rfl

theorem exists_comesTo_of_evaluate [Host ν] {globals : Env ν} {e : Expr} {limit : Nat}
    {v : Value ν} (h : Interpreter.evaluate ⟨globals, limit⟩ e = .ok v) :
    ∃ k, Machine.ComesTo globals (.eval e []) [] k (.ok v) := by
  obtain ⟨⟨w, left⟩, hrun, hw⟩ := except_map_eq_ok_iff.mp h
  cases hw
  obtain ⟨k, hk, -⟩ := Machine.comesTo_of_run hrun
  exact ⟨k, hk⟩

def Expr.selfCall (x : String) : Expr := .lam [x] (.call (.name x) [.name x])

namespace Machine

variable [Host ν] {globals : Env ν} {k : Nat} {o : Except EvalError (Value ν)}

theorem ComesTo.of_selfCall {x : String} {env : Env ν} {g : Value ν}
    (h : ComesTo globals (.call (.closure [x] (.call (.name x) [.name x]) env) [g]) [] k o) :
    ∃ j < k, ComesTo globals (.call g [g]) [] j o := by
  let inner : Env ν := (x, g) :: env
  have hx : ∀ frames, move globals (.eval (.name x) inner) frames = .ok (.go (.ret g) frames) := by
    intro frames
    simp only [move, step, inner, List.lookup_cons, beq_self_eq_true, Option.some_or]
    rfl
  have henter : move globals (.call (.closure [x] (.call (.name x) [.name x]) env) [g]) [] =
      .ok (.go (.eval (.call (.name x) [.name x]) inner) []) := rfl
  have hcallee : move globals (.eval (.call (.name x) [.name x]) inner) [] =
      .ok (.go (.eval (.name x) inner) [.callee [.name x] inner]) := rfl
  have hargument : move globals (.ret g) [.callee [.name x] inner] =
      .ok (.go (.eval (.name x) inner) [.argument g [] [] inner]) := rfl
  have hcall : move globals (.ret g) [.argument g [] [] inner] = .ok (.go (.call g [g]) []) := rfl
  obtain ⟨k₁, hk, h⟩ := h.next henter
  obtain ⟨k₂, hk₁, h⟩ := h.next hcallee
  obtain ⟨k₃, hk₂, h⟩ := h.next (hx _)
  obtain ⟨k₄, hk₃, h⟩ := h.next hargument
  obtain ⟨k₅, hk₄, h⟩ := h.next (hx _)
  obtain ⟨k₆, hk₅, h⟩ := h.next hcall
  simp only [Control.cost] at hk hk₁ hk₂ hk₃ hk₄ hk₅
  exact ⟨k₆, by omega, h⟩

/-- A function that calls its argument with itself, called with itself, makes call after call. -/
theorem not_comesTo_selfCall (x : String) (env : Env ν) :
    ¬ ComesTo globals (.call (.closure [x] (.call (.name x) [.name x]) env)
      [.closure [x] (.call (.name x) [.name x]) env]) [] k o := by
  induction k using Nat.strongRecOn with
  | ind k ih =>
    intro h
    obtain ⟨j, hj, h⟩ := h.of_selfCall
    exact ih j hj h

theorem not_comesTo_eval_selfCall (x y : String) :
    ¬ ComesTo globals (.eval (.call (.selfCall x) [.selfCall y]) []) [] k o := by
  intro h
  obtain ⟨k₁, -, h⟩ := h.next rfl
  obtain ⟨k₂, -, h⟩ := h.next rfl
  obtain ⟨k₃, -, h⟩ := h.next rfl
  obtain ⟨k₄, -, h⟩ := h.next rfl
  obtain ⟨k₅, -, h⟩ := h.next rfl
  obtain ⟨j, -, h⟩ := h.of_selfCall
  exact not_comesTo_selfCall y [] h

end Machine

theorem toNat_add_ofNat {calls : UInt64} {k : Nat} (h : calls.toNat + k < UInt64.size) :
    (calls + .ofNat k).toNat = calls.toNat + k := by
  rw [UInt64.toNat_add, UInt64.toNat_ofNat', Nat.add_mod_mod, Nat.mod_eq_of_lt h]

/-- If the limit leaves room for all calls, it does so for the first ones, and for the others after
them. -/
theorem room_of_add {limit calls : UInt64} {i j : Nat}
    (h : calls.toNat + (i + j) ≤ limit.toNat ∨ limit.toNat + 1 = UInt64.size) :
    (calls.toNat + i ≤ limit.toNat ∨ limit.toNat + 1 = UInt64.size) ∧
      ((calls + .ofNat i).toNat + j ≤ limit.toNat ∨ limit.toNat + 1 = UInt64.size) := by
  refine ⟨h.imp_left fun h => by omega, h.imp_left fun h => ?_⟩
  have hlimit : limit.toNat < UInt64.size := limit.toNat_lt
  rw [toNat_add_ofNat (by omega)]
  omega

namespace Evaluator

open Machine

variable {R : Evaluator ν} {control control' : Control ν} {frames frames' : List (Frame ν)}
  {calls calls' : UInt64} {k : Nat} {o : Except EvalError (Value ν)} {e : EvalError}

theorem limit_lt (R : Evaluator ν) : R.limit.toNat < UInt64.size := R.limit.toNat_lt

theorem count_call (f : Value ν) (args : List (Value ν)) :
    R.count calls (.call f args) =
      if R.limit < calls + 1 then .error (.callLimit R.limit.toNat) else .ok (calls + 1) := rfl

theorem count_eq_ok
    (h : calls.toNat + control.cost ≤ R.limit.toNat ∨ R.limit.toNat + 1 = UInt64.size) :
    R.count calls control = .ok (calls + .ofNat control.cost) := by
  cases control with
  | call f args =>
    rw [count_call, if_neg]
    · rfl
    rw [UInt64.lt_iff_toNat_lt, Nat.not_lt]
    rcases h with h | h
    · have hlt : calls.toNat + 1 < UInt64.size := Nat.lt_of_le_of_lt h R.limit_lt
      exact (toNat_add_ofNat hlt).trans_le h
    · have hlt : (calls + 1).toNat < UInt64.size := (calls + 1).toNat_lt
      omega
  | _ => exact congrArg Except.ok (UInt64.add_zero calls).symm

theorem count_eq_error (hR : R.limit.toNat + 1 < UInt64.size) (hle : calls ≤ R.limit)
    (h : R.limit.toNat < calls.toNat + control.cost) :
    R.count calls control = .error (.callLimit R.limit.toNat) := by
  have hle : calls.toNat ≤ R.limit.toNat := UInt64.le_iff_toNat_le.mp hle
  cases control with
  | call f args =>
    have hlt : calls.toNat + 1 < UInt64.size := by omega
    rw [count_call, if_pos]
    rw [UInt64.lt_iff_toNat_lt]
    exact h.trans_eq (toNat_add_ofNat hlt).symm
  | _ => exact absurd h (Nat.not_lt.mpr hle)

theorem eq_of_count_error (h : R.count calls control = .error e) :
    e = .callLimit R.limit.toNat ∧ R.limit.toNat + 1 < UInt64.size := by
  constructor
  · cases control with
    | call f args =>
      rw [count_call] at h
      split at h <;> cases h
      rfl
    | _ => cases h
  · by_contra hR
    have htop : R.limit.toNat + 1 = UInt64.size := by have := R.limit_lt; omega
    rw [count_eq_ok (.inr htop)] at h
    cases h

theorem le_of_count_ok (hle : calls ≤ R.limit) (h : R.count calls control = .ok calls') :
    calls' ≤ R.limit := by
  cases control with
  | call f args =>
    rw [count_call] at h
    split at h
    · cases h
    · next hlt =>
      cases h
      exact UInt64.not_lt.mp hlt
  | _ =>
    cases h
    exact hle

variable [Host ν]

theorem step_of_count_ok (frames : List (Frame ν)) (h : R.count calls control = .ok calls') :
    R.step ⟨control, frames, calls⟩ = (move R.globals control frames).map (·, calls') := by
  simp only [step, h, ok_bind]
  cases move R.globals control frames <;> rfl

theorem step_of_count_error (h : R.count calls control = .error e) :
    R.step ⟨control, frames, calls⟩ = .error e := by
  simp only [step, h, error_bind]

theorem run_of_step_error {s : State ν} (h : R.step s = .error e) : R.run s = some (.error e) := by
  rw [run, h]

theorem run_of_step_stop {s : State ν} {v : Value ν} (h : R.step s = .ok (.stop v, calls)) :
    R.run s = some (.ok (v, calls)) := by
  rw [run, h]

theorem run_of_step_go {s : State ν} (h : R.step s = .ok (.go control frames, calls)) :
    R.run s = R.run ⟨control, frames, calls⟩ := by
  rw [run, h]

/-- Calls that are within the limit are counted. The greatest limit never stops any. -/
theorem run_of_comesTo (h : ComesTo R.globals control frames k o)
    (hk : calls.toNat + k ≤ R.limit.toNat ∨ R.limit.toNat + 1 = UInt64.size) :
    R.run ⟨control, frames, calls⟩ = some (o.map fun v => (v, calls + .ofNat k)) := by
  induction h generalizing calls with
  | fail he =>
    apply run_of_step_error
    rw [step_of_count_ok _ (count_eq_ok hk), he]
    rfl
  | stop hv =>
    apply run_of_step_stop
    rw [step_of_count_ok _ (count_eq_ok hk), hv]
    rfl
  | @go control control' frames frames' k o hg _ ih =>
    obtain ⟨hcount, hrest⟩ := room_of_add hk
    have hstep := step_of_count_ok frames (count_eq_ok hcount)
    rw [hg] at hstep
    rw [run_of_step_go hstep, ih hrest, UInt64.ofNat_add, UInt64.add_assoc]

/-- Below the greatest limit, calls beyond the limit stop the run. -/
theorem run_of_limit_lt (hR : R.limit.toNat + 1 < UInt64.size) (hle : calls ≤ R.limit)
    (h : ComesTo R.globals control frames k o) (hk : R.limit.toNat < calls.toNat + k) :
    R.run ⟨control, frames, calls⟩ = some (.error (.callLimit R.limit.toNat)) := by
  induction h generalizing calls with
  | fail he => exact run_of_step_error (step_of_count_error (count_eq_error hR hle hk))
  | stop hv => exact run_of_step_error (step_of_count_error (count_eq_error hR hle hk))
  | @go control control' frames frames' k o hg _ ih =>
    by_cases hcount : calls.toNat + control.cost ≤ R.limit.toNat
    · have hadd : (calls + .ofNat control.cost).toNat = calls.toNat + control.cost :=
        toNat_add_ofNat (by omega)
      have hstep := step_of_count_ok frames (count_eq_ok (.inl hcount))
      rw [hg] at hstep
      rw [run_of_step_go hstep]
      apply ih
      · rw [UInt64.le_iff_toNat_le, hadd]
        exact hcount
      · omega
    · have hlt : R.limit.toNat < calls.toNat + control.cost := Nat.not_le.mp hcount
      exact run_of_step_error (step_of_count_error (count_eq_error hR hle hlt))

/-- A run that ends has come to its end, unless it has exceeded a limit that can be exceeded. -/
theorem comesTo_of_run {s : State ν} {r : Except EvalError (Value ν × UInt64)}
    (h : R.run s = some r) :
    (∃ k, ComesTo R.globals s.control s.frames k (r.map Prod.fst)) ∨
      r = .error (.callLimit R.limit.toNat) ∧ R.limit.toNat + 1 < UInt64.size := by
  refine run.partial_correctness R (fun s r =>
    (∃ k, ComesTo R.globals s.control s.frames k (r.map Prod.fst)) ∨
      r = .error (.callLimit R.limit.toNat) ∧ R.limit.toNat + 1 < UInt64.size) ?_ s r h
  clear h
  intro run ih s r h
  cases hc : R.count s.calls s.control with
  | error e =>
    rw [step_of_count_error hc] at h
    cases h
    obtain ⟨rfl, hR⟩ := eq_of_count_error hc
    exact .inr ⟨rfl, hR⟩
  | ok calls =>
    rw [step_of_count_ok s.frames hc] at h
    cases hm : move R.globals s.control s.frames with
    | error e =>
      rw [hm] at h
      cases h
      exact .inl ⟨_, .fail hm⟩
    | ok m =>
      rw [hm] at h
      cases m with
      | stop v =>
        cases h
        exact .inl ⟨_, .stop hm⟩
      | go control frames =>
        exact (ih _ _ h).imp_left fun ⟨k, hk⟩ => ⟨_, .go hm hk⟩

theorem run_eq_none {s : State ν} (htop : R.limit.toNat + 1 = UInt64.size)
    (h : ¬ ∃ k o, ComesTo R.globals s.control s.frames k o) : R.run s = none := by
  cases hr : R.run s with
  | none => rfl
  | some r =>
    rcases comesTo_of_run hr with ⟨k, hk⟩ | ⟨-, hR⟩
    · exact absurd ⟨k, _, hk⟩ h
    · omega

def interpreter (R : Evaluator ν) : Interpreter ν := ⟨R.globals, R.limit.toNat⟩

def machine (R : Evaluator ν) (s : State ν) : Machine.State ν :=
  ⟨s.control, s.frames, R.limit.toNat - s.calls.toNat⟩

def measure (R : Evaluator ν) (s : State ν) : Nat × Nat := (R.machine s).measure

theorem le_of_step {s : State ν} {m : Move ν} (hs : s.calls ≤ R.limit)
    (h : R.step s = .ok (m, calls)) : calls ≤ R.limit := by
  obtain ⟨calls', hc, hm⟩ := except_bind_eq_ok_iff.mp h
  obtain ⟨m', -, hm⟩ := except_bind_eq_ok_iff.mp hm
  cases hm
  exact le_of_count_ok hs hc

/-- Below the greatest limit, a step that counts up is one that counts down. -/
theorem machine_step (hR : R.limit.toNat + 1 < UInt64.size) {s : State ν} (hs : s.calls ≤ R.limit) :
    Machine.step R.interpreter (R.machine s) =
      (R.step s).map fun p => p.1.leaving (R.limit.toNat - p.2.toNat) := by
  obtain ⟨control, frames, calls⟩ := s
  by_cases hc : calls.toNat + control.cost ≤ R.limit.toNat
  · have hadd : (calls + .ofNat control.cost).toNat = calls.toNat + control.cost :=
      toNat_add_ofNat (by omega)
    have hleft : R.limit.toNat - calls.toNat =
        R.limit.toNat - (calls + .ofNat control.cost).toNat + control.cost := by omega
    rw [machine, hleft, step_eq_move, step_of_count_ok frames (count_eq_ok (.inl hc))]
    change (move R.globals control frames).map _ = _
    cases move R.globals control frames <;> rfl
  · have hlt : R.limit.toNat < calls.toNat + control.cost := Nat.not_le.mp hc
    have hle : calls.toNat ≤ R.limit.toNat := UInt64.le_iff_toNat_le.mp hs
    rw [step_of_count_error (count_eq_error hR hs hlt)]
    cases control with
    | call f args =>
      have hleft : R.limit.toNat - calls.toNat = 0 := by
        simp only [Control.cost] at hlt
        omega
      rw [machine, hleft]
      rfl
    | _ => exact absurd hlt (Nat.not_lt.mpr hle)

/-- Below the greatest limit, a run that counts up ends, where the run that counts down does. -/
theorem exists_run (hR : R.limit.toNat + 1 < UInt64.size) {s : State ν} (hs : s.calls ≤ R.limit) :
    ∃ r, R.run s = some r ∧
      Machine.run R.interpreter (R.machine s) =
        r.map (fun p => (p.1, R.limit.toNat - p.2.toNat)) ∧
      ∀ v calls, r = .ok (v, calls) → calls ≤ R.limit := by
  induction ht : R.machine s using wellFounded_measure.induction generalizing s with
  | h t ih =>
    subst ht
    have hstep := machine_step hR hs
    cases h : R.step s with
    | error e =>
      rw [h] at hstep
      exact ⟨_, run_of_step_error h, run_of_error _ hstep, fun v calls hv => by cases hv⟩
    | ok p =>
      obtain ⟨m, calls⟩ := p
      have hle : calls ≤ R.limit := le_of_step hs h
      rw [h] at hstep
      cases m with
      | stop v =>
        refine ⟨_, run_of_step_stop h, run_of_done _ hstep, fun w calls' hw => ?_⟩
        cases hw
        exact hle
      | go control frames =>
        have hnext : Machine.step R.interpreter (R.machine s) =
            .ok (.next (R.machine ⟨control, frames, calls⟩)) := hstep
        rw [run_of_step_go h, run_of_next _ hnext]
        exact ih _ (measure_lt_of_step hnext) hle rfl

section

variable (hR : R.limit.toNat + 1 < UInt64.size)

include hR

theorem run_start_eq (control : Control ν) :
    (R.run ⟨control, [], 0⟩).map (Except.map Prod.fst) =
      some ((Machine.run R.interpreter (R.machine ⟨control, [], 0⟩)).map Prod.fst) := by
  obtain ⟨r, hr, hm, -⟩ := exists_run hR (s := ⟨control, [], 0⟩) UInt64.zero_le
  rw [hr, hm]
  cases r <;> rfl

theorem evaluate_eq (e : Expr) : R.evaluate e = some (R.interpreter.evaluate e) :=
  run_start_eq hR (.eval e [])

theorem apply_eq (f : Value ν) (args : List (Value ν)) :
    R.apply f args = some (R.interpreter.apply f args) :=
  run_start_eq hR (.call f args)

theorem applyTwice_eq (callee first second : Value ν) :
    R.applyTwice callee first second = some (R.interpreter.applyTwice callee first second) := by
  obtain ⟨r, hr, hm, hle⟩ := exists_run hR (s := ⟨.call callee [first], [], 0⟩) UInt64.zero_le
  have hfirst : Machine.run R.interpreter ⟨.call callee [first], [], R.interpreter.limit⟩ =
      r.map fun p => (p.1, R.limit.toNat - p.2.toNat) := hm
  rw [applyTwice, Interpreter.applyTwice_eq, hr, hfirst]
  cases r with
  | error e => rfl
  | ok p =>
    obtain ⟨v, calls⟩ := p
    obtain ⟨q, hq, hn, -⟩ := exists_run hR (s := ⟨.call v [second], [], calls⟩) (hle v calls rfl)
    have hsecond : Machine.run R.interpreter
        ⟨.call v [second], [], R.limit.toNat - calls.toNat⟩ =
          q.map fun p => (p.1, R.limit.toNat - p.2.toNat) := hn
    simp only [Option.bind_some, hq, Except.map, ok_bind, hsecond, Option.map_some]
    cases q <;> rfl

theorem readNumeral_eq (v : Value ν) : R.readNumeral v = some (R.interpreter.readNumeral v) := by
  rw [readNumeral, applyTwice_eq hR]
  rfl

theorem readBoolean_eq (v : Value ν) : R.readBoolean v = some (R.interpreter.readBoolean v) := by
  rw [readBoolean, applyTwice_eq hR]
  rfl

end

/-- Some limit, and then each one above it, stops no run of so many calls. -/
theorem exists_least (k : Nat) :
    ∃ least : UInt64, ∀ limit ≥ least, k ≤ limit.toNat ∨ limit.toNat + 1 = UInt64.size := by
  by_cases hk : k < UInt64.size
  · refine ⟨.ofNat k, fun limit hl => .inl ?_⟩
    rwa [ge_iff_le, UInt64.le_iff_toNat_le, UInt64.toNat_ofNat_of_lt' hk] at hl
  · refine ⟨-1, fun limit hl => .inr ?_⟩
    have hmax : (-1 : UInt64).toNat ≤ limit.toNat := UInt64.le_iff_toNat_le.mp hl
    have hlt : limit.toNat < UInt64.size := limit.toNat_lt
    have htop : (-1 : UInt64).toNat + 1 = UInt64.size := rfl
    omega

theorem run_start_of_comesTo (h : ComesTo R.globals control [] k o)
    (hk : k ≤ R.limit.toNat ∨ R.limit.toNat + 1 = UInt64.size) :
    (R.run ⟨control, [], 0⟩).map (Except.map Prod.fst) = some o := by
  rw [run_of_comesTo h (by simpa using hk)]
  cases o <;> rfl

theorem evaluate_of_comesTo {e : Expr} (h : ComesTo R.globals (.eval e []) [] k o)
    (hk : k ≤ R.limit.toNat ∨ R.limit.toNat + 1 = UInt64.size) : R.evaluate e = some o :=
  run_start_of_comesTo h hk

theorem apply_of_comesTo {f : Value ν} {args : List (Value ν)}
    (h : ComesTo R.globals (.call f args) [] k o)
    (hk : k ≤ R.limit.toNat ∨ R.limit.toNat + 1 = UInt64.size) : R.apply f args = some o :=
  run_start_of_comesTo h hk

theorem applyTwice_of_comesTo {f g x y : Value ν} {i j : Nat}
    (hf : ComesTo R.globals (.call f [x]) [] i (.ok g))
    (hg : ComesTo R.globals (.call g [y]) [] j o)
    (hk : i + j ≤ R.limit.toNat ∨ R.limit.toNat + 1 = UInt64.size) :
    R.applyTwice f x y = some o := by
  have hroom : (0 : UInt64).toNat + (i + j) ≤ R.limit.toNat ∨ R.limit.toNat + 1 = UInt64.size :=
    hk.imp_left fun hk => by simpa using hk
  obtain ⟨hfirst, hsecond⟩ := room_of_add hroom
  rw [applyTwice, run_of_comesTo hf hfirst]
  change (R.run ⟨.call g [y], [], 0 + .ofNat i⟩).map (Except.map Prod.fst) = some o
  rw [run_of_comesTo hg hsecond]
  cases o <;> rfl

theorem evaluate_eq_none {e : Expr} (htop : R.limit.toNat + 1 = UInt64.size)
    (h : ¬ ∃ k o, ComesTo R.globals (.eval e []) [] k o) : R.evaluate e = none := by
  rw [evaluate, run_eq_none htop h]
  rfl

/-- What an expression evaluates to under a word as the limit, it evaluates to under a number. -/
theorem exists_evaluate_interpreter {e : Expr} {v : Value ν} (h : R.evaluate e = some (.ok v)) :
    ∃ limit, Interpreter.evaluate ⟨R.globals, limit⟩ e = .ok v := by
  obtain ⟨r, hr, hv⟩ := Option.map_eq_some_iff.mp h
  rcases comesTo_of_run hr with ⟨k, hk⟩ | ⟨rfl, -⟩
  · rw [hv] at hk
    exact ⟨k, Interpreter.evaluate_of_comesTo hk (Nat.le_refl k)⟩
  · cases hv

/-- What an expression evaluates to under a number as the limit, it evaluates to under all words
from some point on. -/
theorem exists_least_evaluate {globals : Env ν} {limit : Nat} {e : Expr} {v : Value ν}
    (h : Interpreter.evaluate ⟨globals, limit⟩ e = .ok v) :
    ∃ least : UInt64, ∀ limit ≥ least, Evaluator.evaluate ⟨globals, limit⟩ e = some (.ok v) := by
  obtain ⟨k, hk⟩ := exists_comesTo_of_evaluate h
  obtain ⟨least, hleast⟩ := exists_least k
  exact ⟨least, fun limit hl => evaluate_of_comesTo hk (hleast limit hl)⟩

end Evaluator

/-- A program is run on words as it is run on numbers, if the limit is not the greatest one. -/
theorem Program.execute_eq [Host ν] {R : Evaluator ν} (hR : R.limit.toNat + 1 < UInt64.size)
    (text : String) : execute R text = some (run R.interpreter text) := by
  rw [execute, run]
  cases tree text with
  | error e => rfl
  | ok e => exact congrArg (Option.map (Except.mapError ProgramError.eval)) (R.evaluate_eq hR e)

end Curried
