import Curried.Proofs.CallCost
import Curried.Interpreter
import Curried.Value
import Mathlib.Logic.Function.Iterate

namespace Curried

open Machine

variable {ν : Type}

def Interpreter.applyTimes [Host ν] (I : Interpreter ν) (f : Value ν) :
    Nat → Value ν → Except EvalError (Value ν)
  | 0, v => .ok v
  | k + 1, v => do I.apply f [← I.applyTimes f k v]

namespace Numeral

def again (n f x : String) : Expr :=
  .call (.name f) [.call (.call (.name n) [.name f]) [.name x]]

def zero (p q : String) : Value ν := .closure [p] (.lam [q] (.name q)) []

def succ (n f x : String) : Value ν := .closure [n] (.lam [f] (.lam [x] (again n f x))) []

def next (n f x : String) (v : Value ν) : Value ν := .closure [f] (.lam [x] (again n f x)) [(n, v)]

variable [Host ν] {globals : Env ν} {n f x p q : String}

theorem gives_succ (v : Value ν) : Gives globals (succ n f x) v 1 (next n f x v) :=
  Evaluates.gives (evaluates_lam [f] (.lam [x] (again n f x)))

theorem gives_zero (g : Value ν) :
    Gives globals (zero p q) g 1 (.closure [q] (.name q) [(p, g)]) :=
  Evaluates.gives (evaluates_lam [q] (.name q))

theorem gives_next (v g : Value ν) :
    Gives globals (next n f x v) g 1 (.closure [x] (again n f x) [(f, g), (n, v)]) :=
  Evaluates.gives (evaluates_lam [x] (again n f x))

theorem gives_identity (q : String) (env : Env ν) (y : Value ν) :
    Gives globals (.closure [q] (.name q) env) y 1 y :=
  Evaluates.gives (evaluates_name (by simp))

/-- What a numeral makes of a function calls the function once more than the numeral before it. The
calls are those of the latter, and one to enter this one. -/
theorem gives_again (hnf : n ≠ f) (hnx : n ≠ x) (hfx : f ≠ x) {v g w y z u : Value ν} {i j k : Nat}
    (hw : Gives globals v g i w) (hz : Gives globals w y j z) (hu : Gives globals g z k u) :
    Gives globals (.closure [x] (again n f x) [(f, g), (n, v)]) y (i + j + k + 1) u := by
  have hn : Evaluates globals [(x, y), (f, g), (n, v)] (.name n) 0 v :=
    evaluates_name (by simp [List.lookup_cons, beq_false_of_ne hnx, beq_false_of_ne hnf])
  have hf : Evaluates globals [(x, y), (f, g), (n, v)] (.name f) 0 g :=
    evaluates_name (by simp [List.lookup_cons, beq_false_of_ne hfx])
  have hx : Evaluates globals [(x, y), (f, g), (n, v)] (.name x) 0 y :=
    evaluates_name (by simp)
  have hbody : Evaluates globals [(x, y), (f, g), (n, v)] (again n f x) (i + j + k) u := by
    have h := hf.call ((hn.call hf hw).call hx hz) hu
    simp only [Nat.zero_add] at h
    exact h
  exact hbody.gives

/-- Counting on from a numeral. -/
theorem applyTimes_succ (limit : Nat) (hlimit : 1 ≤ limit) (k : Nat) (v : Value ν) :
    Interpreter.applyTimes ⟨globals, limit⟩ (succ n f x) k v = .ok ((next n f x)^[k] v) := by
  induction k with
  | zero => rfl
  | succ k ih =>
    rw [Interpreter.applyTimes, ih, ok_bind, (gives_succ _).apply hlimit,
      Function.iterate_succ_apply']

/-- The increment is called as often as the numeral says, with three calls each time: of the numeral
before, of what it makes of the increment, and of the increment itself. -/
theorem gives_iterate_next (globals : Env ν) (p q : String) (hnf : n ≠ f) (hnx : n ≠ x)
    (hfx : f ≠ x) (k : Nat) :
    ∃ w, Gives globals ((next n f x)^[k] (zero p q)) (.ofBuiltin .inc) 1 w ∧
      Gives globals w (.int 0) (3 * k + 1) (.int (.ofNat k)) := by
  induction k with
  | zero => exact ⟨_, gives_zero _, gives_identity q _ (.int 0)⟩
  | succ k ih =>
    obtain ⟨w, hw, hread⟩ := ih
    have hagain := gives_again hnf hnx hfx hw hread (gives_inc (.ofNat k))
    rw [Function.iterate_succ_apply']
    refine ⟨_, gives_next _ _, ?_⟩
    have hcost : 1 + (3 * k + 1) + 1 + 1 = 3 * (k + 1) + 1 := by omega
    have hsum : Int64.ofNat k + 1 = Int64.ofNat (k + 1) := (Int64.ofNat_add k 1).symm
    rwa [hcost, hsum] at hagain

/-- A numeral that was counted from zero is read within the limit exactly if three calls for each
time it was counted on, and two more, are within it. -/
theorem read_applyTimes_succ (hnf : n ≠ f) (hnx : n ≠ x) (hfx : f ≠ x) {I : Interpreter ν}
    (hlimit : 1 ≤ I.limit) (k : Nat) :
    ∃ v, I.applyTimes (succ n f x) k (zero p q) = .ok v ∧
      I.readNumeral v =
        if 3 * k + 2 ≤ I.limit then .ok (.ofNat k) else .error (.callLimit I.limit) := by
  obtain ⟨globals, limit⟩ := I
  obtain ⟨w, hw, hread⟩ := gives_iterate_next globals p q hnf hnx hfx k
  refine ⟨_, applyTimes_succ limit hlimit k (zero p q), ?_⟩
  have hcost : 1 + (3 * k + 1) = 3 * k + 2 := by omega
  rw [Interpreter.readNumeral, hw.applyTwice hread limit, hcost]
  split <;> rfl

end Numeral

/-- A function is a value at once, under any limit. -/
theorem Interpreter.evaluate_lam [Host ν] (I : Interpreter ν) (params : List String) (body : Expr) :
    I.evaluate (.lam params body) = .ok (.closure params body []) :=
  (evaluates_lam params body).evaluate (Nat.zero_le I.limit)

namespace Program

/-- The value of a text as it stands, without a term in between. -/
def value [Host ν] (I : Interpreter ν) (text : String) : Except ProgramError (Value ν) := do
  let e ← (parse text).mapError .parse
  (I.evaluate e).mapError .eval

variable [Host ν] (I : Interpreter ν) {text : String}

theorem run_of_tree {e : Expr} (h : tree text = .ok e) :
    run I text = (I.evaluate e).mapError .eval := by
  rw [run, h, ok_bind]

theorem run_of_tree_lam {params : List String} {body : Expr}
    (h : tree text = .ok (.lam params body)) : run I text = .ok (.closure params body []) := by
  rw [run_of_tree I h, I.evaluate_lam]
  rfl

theorem value_of_parse_lam {params : List String} {body : Expr}
    (h : parse text = .ok (.lam params body)) : value I text = .ok (.closure params body []) := by
  rw [value, h]
  change (I.evaluate (.lam params body)).mapError ProgramError.eval = _
  rw [I.evaluate_lam]
  rfl

end Program

theorem Program.execute_of_tree [Host ν] (R : Evaluator ν) {text : String} {e : Expr} {v : Value ν}
    {k : Nat} (h : tree text = .ok e) (hv : Evaluates R.globals [] e k v)
    (hk : k ≤ R.limit.toNat ∨ R.limit.toNat + 1 = UInt64.size) :
    execute R text = some (.ok v) := by
  rw [execute, h]
  change (R.evaluate e).map (Except.mapError ProgramError.eval) = _
  rw [Evaluator.evaluate_of_comesTo (comesTo_of_costs hv) hk]
  rfl

theorem Numeral.tree_zero :
    Program.tree "f -> x -> x" = .ok (.lam ["x0"] (.lam ["x1"] (.name "x1"))) := by
  decide +kernel

theorem Numeral.tree_succ :
    Program.tree "n -> f -> x -> f(n(f)(x))" =
      .ok (.lam ["x0"] (.lam ["x1"] (.lam ["x2"] (Numeral.again "x0" "x1" "x2")))) := by
  decide +kernel

theorem Numeral.run_texts [Host ν] (I : Interpreter ν) :
    Program.run I "f -> x -> x" = .ok (Numeral.zero "x0" "x1") ∧
      Program.run I "n -> f -> x -> f(n(f)(x))" = .ok (Numeral.succ "x0" "x1" "x2") :=
  ⟨Program.run_of_tree_lam I Numeral.tree_zero, Program.run_of_tree_lam I Numeral.tree_succ⟩

theorem Numeral.value_texts [Host ν] (I : Interpreter ν) :
    Program.value I "f -> x -> x" = .ok (Numeral.zero "f" "x") ∧
      Program.value I "n -> f -> x -> f(n(f)(x))" = .ok (Numeral.succ "n" "f" "x") := by
  have hzero : parse "f -> x -> x" = .ok (.lam ["f"] (.lam ["x"] (.name "x"))) := by
    decide +kernel
  have hsucc : parse "n -> f -> x -> f(n(f)(x))" =
      .ok (.lam ["n"] (.lam ["f"] (.lam ["x"] (Numeral.again "n" "f" "x")))) := by decide +kernel
  exact ⟨Program.value_of_parse_lam I hzero, Program.value_of_parse_lam I hsucc⟩

/-- The numeral for `k`, counted from zero by calls of the successor, is read as `k`, wrapped to 64
bits, if the limit is at least `3 * k + 2`, and otherwise exceeds the limit. Any limit of one call
or more lets it be counted. Zero and the successor are given by their texts, which may be evaluated
as they stand or run as programs. -/
theorem numeral_reads_within_limit [Host ν] {I : Interpreter ν} (hlimit : 1 ≤ I.limit)
    {value : String → Except ProgramError (Value ν)}
    (hvalue : value = Program.value I ∨ value = Program.run I) (k : Nat) :
    ∃ zero succ v, value "f -> x -> x" = .ok zero ∧
      value "n -> f -> x -> f(n(f)(x))" = .ok succ ∧ I.applyTimes succ k zero = .ok v ∧
      I.readNumeral v =
        if 3 * k + 2 ≤ I.limit then .ok (.ofNat k) else .error (.callLimit I.limit) := by
  rcases hvalue with rfl | rfl
  · obtain ⟨hzero, hsucc⟩ := Numeral.value_texts I
    obtain ⟨v, hv, hread⟩ := @Numeral.read_applyTimes_succ ν _ "n" "f" "x" "f" "x" (by decide)
      (by decide) (by decide) I hlimit k
    exact ⟨_, _, v, hzero, hsucc, hv, hread⟩
  · obtain ⟨hzero, hsucc⟩ := Numeral.run_texts I
    obtain ⟨v, hv, hread⟩ := @Numeral.read_applyTimes_succ ν _ "x0" "x1" "x2" "x0" "x1" (by decide)
      (by decide) (by decide) I hlimit k
    exact ⟨_, _, v, hzero, hsucc, hv, hread⟩

/-- The numeral two takes eight calls: seven are not enough. -/
theorem numeral_two_reads_within_limit :
    let I : Nat → Interpreter Stock := fun limit => ⟨Interpreter.builtins, limit⟩
    (∃ zero succ v, Program.value (I 8) "f -> x -> x" = .ok zero ∧
      Program.value (I 8) "n -> f -> x -> f(n(f)(x))" = .ok succ ∧
      (I 8).applyTimes succ 2 zero = .ok v ∧ (I 8).readNumeral v = .ok 2) ∧
    ∃ zero succ v, Program.run (I 7) "f -> x -> x" = .ok zero ∧
      Program.run (I 7) "n -> f -> x -> f(n(f)(x))" = .ok succ ∧
      (I 7).applyTimes succ 2 zero = .ok v ∧ (I 7).readNumeral v = .error (.callLimit 7) :=
  ⟨numeral_reads_within_limit (by decide) (.inl rfl) 2,
    numeral_reads_within_limit (by decide) (.inr rfl) 2⟩

end Curried
