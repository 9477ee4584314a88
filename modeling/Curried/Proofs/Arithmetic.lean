import Curried.Proofs.Numerals
import Curried.Proofs.Reduction
import Mathlib.Algebra.Group.Nat.Defs

/-!
Church arithmetic. A value represents the number `k` if it makes of each function one that calls it
`k` times, one call after the other. This does not depend on how the value came about: what
multiplication and powers give are functions of other shapes than the numerals that were counted,
and with the power zero it is the identity. Sums, products and powers of values that represent
numbers represent the sums, products and powers of these.
-/

namespace Curried

open Machine

variable {ν : Type} [Host ν] (globals : Env ν)

def Computes (env : Env ν) (e : Expr) (v : Value ν) : Prop := ∃ k, Evaluates globals env e k v

def Returns (f x y : Value ν) : Prop := ∃ k, Gives globals f x k y

variable {globals} {env : Env ν}

theorem computes_name {x : String} {v : Value ν}
    (h : (env.lookup x).or (globals.lookup x) = some v) : Computes globals env (.name x) v :=
  ⟨0, evaluates_name h⟩

theorem computes_lam (params : List String) (body : Expr) :
    Computes globals env (.lam params body) (.closure params body env) :=
  ⟨0, evaluates_lam params body⟩

theorem Computes.call {f a : Expr} {g x y : Value ν} (hf : Computes globals env f g)
    (ha : Computes globals env a x) (hy : Returns globals g x y) :
    Computes globals env (.call f [a]) y := by
  obtain ⟨i, hf⟩ := hf
  obtain ⟨j, ha⟩ := ha
  obtain ⟨k, hy⟩ := hy
  exact ⟨_, hf.call ha hy⟩

theorem Computes.returns {p : String} {x y : Value ν} {body : Expr}
    (h : Computes globals ((p, x) :: env) body y) :
    Returns globals (.closure [p] body env) x y := by
  obtain ⟨k, h⟩ := h
  exact ⟨_, h.gives⟩

variable (globals)

def Repeats (g : Value ν) (k : Nat) (w : Value ν) : Prop :=
  ∀ y z, Iterated (Returns globals g) k y z → Returns globals w y z

/-- A value makes of each function one that repeats it `k` times. -/
def Represents (k : Nat) (v : Value ν) : Prop :=
  ∀ g, ∃ w, Returns globals v g w ∧ Repeats globals g k w

variable {globals}

theorem repeats_one (g : Value ν) : Repeats globals g 1 g := by
  intro y z h
  cases h with
  | succ hz h =>
    cases h
    exact hz

/-- Repeating what repeats a function multiplies the numbers. -/
theorem Repeats.mul {g u w : Value ν} {m n : Nat} (hu : Repeats globals g m u)
    (hw : Repeats globals u n w) : Repeats globals g (m * n) w := by
  intro y z h
  apply hw
  clear hw
  induction n generalizing y with
  | zero =>
    cases h
    exact .zero _
  | succ n ih =>
    rw [Nat.mul_succ, Nat.add_comm] at h
    obtain ⟨b, hb, h⟩ := Iterated.add_iff.mp h
    exact .succ (hu y b hb) (ih b h)

namespace Represents

theorem zero (p q : String) : Represents globals 0 (Numeral.zero p q) := by
  intro g
  refine ⟨_, ⟨1, Numeral.gives_zero g⟩, ?_⟩
  intro y z h
  cases h
  exact ⟨1, Numeral.gives_identity q _ y⟩

variable {n f x : String} (hnf : n ≠ f) (hnx : n ≠ x) (hfx : f ≠ x)

include hnf hnx hfx

theorem next {k : Nat} {v : Value ν} (h : Represents globals k v) :
    Represents globals (k + 1) (Numeral.next n f x v) := by
  intro g
  obtain ⟨w, ⟨i, hw⟩, hrepeats⟩ := h g
  refine ⟨_, ⟨1, Numeral.gives_next v g⟩, ?_⟩
  intro y u hu
  obtain ⟨z, hz, hlast⟩ := Iterated.add_iff.mp hu
  obtain ⟨j, hz⟩ := hrepeats y z hz
  obtain ⟨l, hlast⟩ := repeats_one g z u hlast
  exact ⟨_, Numeral.gives_again hnf hnx hfx hw hz hlast⟩

theorem iterate_next {j : Nat} {v : Value ν} (h : Represents globals j v) (k : Nat) :
    Represents globals (j + k) ((Numeral.next n f x)^[k] v) := by
  induction k with
  | zero => exact h
  | succ k ih =>
    rw [Function.iterate_succ_apply', ← Nat.add_assoc]
    exact next hnf hnx hfx ih

end Represents

/-- The successor counts a numeral on. -/
theorem iterated_succ (n f x : String) (k : Nat) (v : Value ν) :
    Iterated (Returns globals (Numeral.succ n f x)) k v ((Numeral.next n f x)^[k] v) := by
  induction k generalizing v with
  | zero => exact .zero v
  | succ k ih => exact .succ ⟨1, Numeral.gives_succ v⟩ (ih _)

theorem iterated_inc (globals : Env ν) (j k : Nat) :
    Iterated (Returns globals (.ofBuiltin .inc)) k (.int (.ofNat j)) (.int (.ofNat (j + k))) := by
  induction k generalizing j with
  | zero => exact .zero _
  | succ k ih =>
    have hnext : Returns globals (.ofBuiltin .inc) (.int (.ofNat j)) (.int (.ofNat (j + 1))) := by
      rw [Int64.ofNat_add]
      exact ⟨1, gives_inc _⟩
    have hsum : j + (k + 1) = j + 1 + k := by omega
    rw [hsum]
    exact .succ hnext (ih (j + 1))

/-- What represents a number is read as this number, if the limit is high enough. -/
theorem Represents.read {k : Nat} {v : Value ν} (h : Represents globals k v) :
    ∃ cost, ∀ limit : UInt64, cost ≤ limit.toNat ∨ limit.toNat + 1 = UInt64.size →
      Evaluator.readNumeral ⟨globals, limit⟩ v = some (.ok (.ofNat k)) := by
  obtain ⟨w, ⟨i, hw⟩, hrepeats⟩ := h (.ofBuiltin .inc)
  have hcount := iterated_inc globals 0 k
  rw [Nat.zero_add] at hcount
  obtain ⟨j, hread⟩ := hrepeats _ _ hcount
  refine ⟨i + j, fun limit hlimit => ?_⟩
  have htwice := Evaluator.applyTwice_of_comesTo (R := ⟨globals, limit⟩) (comesTo_of_costs hw)
    (comesTo_of_costs hread) hlimit
  exact congrArg (Option.map (· >>= Value.toInt)) htwice

namespace Church

def add : Value ν :=
  .closure ["x0"] (.lam ["x1"] (.call (.call (.name "x0") [.name "SUCC"]) [.name "x1"])) []

def mul : Value ν :=
  .closure ["x0"] (.lam ["x1"] (.lam ["x2"] (.call (.name "x1") [.call (.name "x0") [.name "x2"]])))
    []

def exp : Value ν := .closure ["x0"] (.lam ["x1"] (.call (.name "x1") [.name "x0"])) []

def ReturnsTwo (globals : Env ν) (f x y z : Value ν) : Prop :=
  ∃ g, Returns globals f x g ∧ Returns globals g y z

theorem returnsTwo_closure {p q : String} {body : Expr} {x y z : Value ν}
    (h : Computes globals [(q, y), (p, x)] body z) :
    ReturnsTwo globals (.closure [p] (.lam [q] body) []) x y z :=
  ⟨_, (computes_lam [q] body).returns, h.returns⟩

variable {M N : Value ν} {m n : Nat}

/-- The sum counts `N` on as often as `M` says. -/
theorem exists_add {k f x : String} (hkf : k ≠ f) (hkx : k ≠ x) (hfx : f ≠ x)
    (hsucc : globals.lookup "SUCC" = some (Numeral.succ k f x)) (hM : Represents globals m M)
    (hN : Represents globals n N) :
    ∃ v, ReturnsTwo globals add M N v ∧ Represents globals (m + n) v := by
  obtain ⟨w, hw, hrepeats⟩ := hM (Numeral.succ k f x)
  -- Whatever represents `n`, each call of the successor makes of it what represents one more.
  have hv := hrepeats N _ (iterated_succ k f x m N)
  refine ⟨_, returnsTwo_closure ?_, Nat.add_comm n m ▸ hN.iterate_next hkf hkx hfx m⟩
  exact .call (.call (computes_name rfl) (computes_name hsucc) hw) (computes_name rfl) hv

/-- The product is a function that repeats what `M` makes of its argument as often as `N` says. -/
theorem exists_mul (hM : Represents globals m M) (hN : Represents globals n N) :
    ∃ v, ReturnsTwo globals mul M N v ∧ Represents globals (m * n) v := by
  refine ⟨_, returnsTwo_closure (computes_lam _ _), ?_⟩
  intro g
  obtain ⟨u, hu, hrepeatsM⟩ := hM g
  obtain ⟨w, hw, hrepeatsN⟩ := hN u
  refine ⟨w, Computes.returns ?_, hrepeatsM.mul hrepeatsN⟩
  exact .call (computes_name rfl) (.call (computes_name rfl) (computes_name rfl) hu) hw

/-- What `M` makes of a function, of the result of this, and so on, repeats the function as often as
a power of `m` says. -/
theorem exists_iterated_pow (hM : Represents globals m M) (g : Value ν) (n : Nat) :
    ∃ w, Iterated (Returns globals M) n g w ∧ Repeats globals g (m ^ n) w := by
  induction n with
  | zero => exact ⟨g, .zero g, repeats_one g⟩
  | succ n ih =>
    obtain ⟨w, hw, hrepeats⟩ := ih
    obtain ⟨u, hu, hrepeatsM⟩ := hM w
    exact ⟨u, Iterated.add_iff.mpr ⟨w, hw, .one hu⟩, hrepeats.mul hrepeatsM⟩

/-- The power repeats `M` itself as often as `N` says. -/
theorem exists_exp (hM : Represents globals m M) (hN : Represents globals n N) :
    ∃ v, ReturnsTwo globals exp M N v ∧ Represents globals (m ^ n) v := by
  obtain ⟨w, hw, hrepeats⟩ := hN M
  refine ⟨w, returnsTwo_closure (.call (computes_name rfl) (computes_name rfl) hw), ?_⟩
  intro g
  -- What `N` makes of `M` does to `g` what `n` calls of `M` in a row do.
  obtain ⟨u, hu, hpow⟩ := exists_iterated_pow hM g n
  exact ⟨u, hrepeats g u hu, hpow⟩

end Church

abbrev Execution := ExceptT ProgramError Option

theorem execution_bind_of_run {α β : Type} {x : Execution α} {f : α → Execution β} {a : α}
    (h : x.run = some (.ok a)) : (x >>= f).run = (f a).run := by
  change (x.run >>= ExceptT.bindCont f) = _
  rw [h]
  rfl

theorem execution_mk_bind {α β : Type} {x : Option (Except ProgramError α)} {f : α → Execution β}
    {a : α} (h : x = some (.ok a)) : (ExceptT.mk x >>= f).run = (f a).run :=
  execution_bind_of_run h

def Evaluator.defineText (R : Evaluator ν) (name text : String) : Execution (Evaluator ν) := do
  return R.define name (← ExceptT.mk (Program.execute R text))

def Evaluator.applyTimes (R : Evaluator ν) (f : Value ν) : Nat → Value ν → Execution (Value ν)
  | 0, v => return v
  | k + 1, v => do
    ExceptT.adapt .eval (ExceptT.mk (R.apply f [← R.applyTimes f k v]))

def Program.readNumeral (R : Evaluator ν) (text : String) : Execution Int64 := do
  ExceptT.adapt .eval (ExceptT.mk (R.readNumeral (← ExceptT.mk (execute R text))))

theorem Evaluator.defineText_of_lam {R : Evaluator ν} {name text : String} {params : List String}
    {body : Expr} (h : Program.tree text = .ok (.lam params body)) :
    (R.defineText name text).run = some (.ok (R.define name (.closure params body []))) :=
  execution_mk_bind
    (Program.execute_of_tree R h (evaluates_lam params body) (.inl (Nat.zero_le _)))

theorem Program.execute_of_tree_name {limit : UInt64} {text x : String} {v : Value ν}
    (h : tree text = .ok (.name x)) (hv : globals.lookup x = some v) :
    execute ⟨globals, limit⟩ text = some (.ok v) :=
  execute_of_tree _ h (evaluates_name hv) (.inl (Nat.zero_le _))

/-- A text whose expression has a value that represents a number is read as this number, if the
limit is high enough. -/
theorem Program.exists_readNumeral {text : String} {e : Expr} {v : Value ν} {k : Nat}
    (he : tree text = .ok e) (hv : Computes globals [] e v) (hk : Represents globals k v) :
    ∃ cost, ∀ limit : UInt64, cost ≤ limit.toNat ∨ limit.toNat + 1 = UInt64.size →
      (readNumeral ⟨globals, limit⟩ text).run = some (.ok (.ofNat k)) := by
  obtain ⟨i, hv⟩ := hv
  obtain ⟨j, hread⟩ := hk.read
  refine ⟨i + j, fun limit hlimit => ?_⟩
  have hi : i ≤ limit.toNat ∨ limit.toNat + 1 = UInt64.size := hlimit.imp_left (by omega)
  refine (execution_mk_bind (execute_of_tree ⟨globals, limit⟩ he hv hi)).trans ?_
  change (Evaluator.readNumeral ⟨globals, limit⟩ v).map (Except.mapError ProgramError.eval) = _
  rw [hread limit (hlimit.imp_left (by omega))]
  rfl

def Church.operational (limit : UInt64) : Execution (Evaluator ν) := do
  let R : Evaluator ν := { Evaluator.standard with limit }
  let R ← R.defineText "ZERO" "f -> x -> x"
  let R ← R.defineText "SUCC" "n -> f -> x -> f(n(f)(x))"
  let R ← R.defineText "ADD" "a -> b -> a(SUCC)(b)"
  let R ← R.defineText "MUL" "a -> b -> f -> b(a(f))"
  R.defineText "EXP" "a -> b -> b(a)"

/-- The same evaluator with `M` and `N` for the numerals that were counted from zero to `m` and `n`
with the successor. -/
def Church.evaluator (limit : UInt64) (m n : Nat) : Execution (Evaluator ν) := do
  let R ← Church.operational limit
  let zero ← ExceptT.mk (Program.execute R "ZERO")
  let succ ← ExceptT.mk (Program.execute R "SUCC")
  let M ← R.applyTimes succ m zero
  let N ← R.applyTimes succ n zero
  return (R.define "M" M).define "N" N

namespace Church

def numeral (k : Nat) : Value ν := (Numeral.next "x0" "x1" "x2")^[k] (Numeral.zero "x0" "x1")

def operations : Env ν :=
  [("EXP", exp), ("MUL", mul), ("ADD", add), ("SUCC", Numeral.succ "x0" "x1" "x2"),
    ("ZERO", Numeral.zero "x0" "x1")] ++ Interpreter.builtins

def definitions (m n : Nat) : Env ν := [("N", numeral n), ("M", numeral m)] ++ operations

theorem run_operational (limit : UInt64) :
    (operational limit).run = some (.ok (⟨operations, limit⟩ : Evaluator ν)) := by
  have hadd : Program.tree "a -> b -> a(SUCC)(b)" =
      .ok (.lam ["x0"] (.lam ["x1"] (.call (.call (.name "x0") [.name "SUCC"]) [.name "x1"]))) := by
    decide +kernel
  have hmul : Program.tree "a -> b -> f -> b(a(f))" = .ok (.lam ["x0"] (.lam ["x1"] (.lam ["x2"]
      (.call (.name "x1") [.call (.name "x0") [.name "x2"]])))) := by
    decide +kernel
  have hexp : Program.tree "a -> b -> b(a)" =
      .ok (.lam ["x0"] (.lam ["x1"] (.call (.name "x1") [.name "x0"]))) := by
    decide +kernel
  rw [operational, execution_bind_of_run (Evaluator.defineText_of_lam Numeral.tree_zero),
    execution_bind_of_run (Evaluator.defineText_of_lam Numeral.tree_succ),
    execution_bind_of_run (Evaluator.defineText_of_lam hadd),
    execution_bind_of_run (Evaluator.defineText_of_lam hmul), Evaluator.defineText_of_lam hexp]
  rfl

theorem run_applyTimes_succ {limit : UInt64} (hlimit : 1 ≤ limit.toNat) (k : Nat) (v : Value ν) :
    (Evaluator.applyTimes ⟨globals, limit⟩ (Numeral.succ "x0" "x1" "x2") k v).run =
      some (.ok ((Numeral.next "x0" "x1" "x2")^[k] v)) := by
  induction k with
  | zero => rfl
  | succ k ih =>
    refine (execution_bind_of_run ih).trans ?_
    rw [Function.iterate_succ_apply']
    change (Evaluator.apply ⟨globals, limit⟩ _ [_]).map (Except.mapError ProgramError.eval) = _
    rw [Evaluator.apply_of_comesTo (comesTo_of_costs (Numeral.gives_succ _)) (.inl hlimit)]
    rfl

/-- Any limit of one call or more is enough to count. -/
theorem run_evaluator (m n : Nat) {limit : UInt64} (hlimit : 1 ≤ limit.toNat) :
    (evaluator limit m n).run = some (.ok (⟨definitions m n, limit⟩ : Evaluator ν)) := by
  have hnames : Program.tree "ZERO" = .ok (.name "ZERO") ∧
      Program.tree "SUCC" = .ok (.name "SUCC") := ⟨by decide +kernel, by decide +kernel⟩
  have hzero : Program.execute (⟨operations, limit⟩ : Evaluator ν) "ZERO" =
      some (.ok (Numeral.zero "x0" "x1")) := Program.execute_of_tree_name hnames.1 rfl
  have hsucc : Program.execute (⟨operations, limit⟩ : Evaluator ν) "SUCC" =
      some (.ok (Numeral.succ "x0" "x1" "x2")) := Program.execute_of_tree_name hnames.2 rfl
  rw [evaluator, execution_bind_of_run (run_operational limit), execution_mk_bind hzero,
    execution_mk_bind hsucc, execution_bind_of_run (run_applyTimes_succ hlimit m _),
    execution_bind_of_run (run_applyTimes_succ hlimit n _)]
  rfl

theorem represents_numeral (k : Nat) : Represents globals k (numeral k) := by
  have h := (Represents.zero "x0" "x1" : Represents globals 0 _).iterate_next
    (n := "x0") (f := "x1") (x := "x2") (by decide) (by decide) (by decide) k
  rwa [Nat.zero_add] at h

/-- An operation that is a global is called by its name, with the arguments `M` and `N` one after
the other. -/
theorem exists_readNumeral_operation {m n k : Nat} {text operation : String} {f : Value ν}
    (htext : Program.tree text = .ok (.call (.call (.name operation) [.name "M"]) [.name "N"]))
    (hf : (definitions m n).lookup operation = some f)
    (h : ∃ v, ReturnsTwo (definitions m n) f (numeral m) (numeral n) v ∧
      Represents (definitions m n) k v) :
    ∃ cost, ∀ limit : UInt64, cost ≤ limit.toNat ∨ limit.toNat + 1 = UInt64.size →
      (Program.readNumeral (⟨definitions m n, limit⟩ : Evaluator ν) text).run =
        some (.ok (.ofNat k)) := by
  obtain ⟨v, ⟨g, hg, hv⟩, hk⟩ := h
  have hM : Computes (definitions m n : Env ν) [] (.name "M") (numeral m) := computes_name rfl
  have hN : Computes (definitions m n : Env ν) [] (.name "N") (numeral n) := computes_name rfl
  exact Program.exists_readNumeral htext (.call (.call (computes_name hf) hM hg) hN hv) hk

end Church

/-- Under limits that are high enough, the programs `ADD(M, N)`, `MUL(M, N)` and `EXP(M, N)` are
read as the sum, the product and the power of the numbers that `M` and `N` were counted to, wrapped
to 64 bits. -/
theorem church_arithmetic_reads (m n : Nat) :
    ∃ least : UInt64, ∀ limit ≥ least, ∃ R : Evaluator ν,
      (Church.evaluator limit m n).run = some (.ok R) ∧
      (Program.readNumeral R "ADD(M, N)").run = some (.ok (.ofNat (m + n))) ∧
      (Program.readNumeral R "MUL(M, N)").run = some (.ok (.ofNat (m * n))) ∧
      (Program.readNumeral R "EXP(M, N)").run = some (.ok (.ofNat (m ^ n))) := by
  have hM : Represents (Church.definitions m n : Env ν) m (Church.numeral m) :=
    Church.represents_numeral m
  have hN : Represents (Church.definitions m n : Env ν) n (Church.numeral n) :=
    Church.represents_numeral n
  have htext : Program.tree "ADD(M, N)" =
        .ok (.call (.call (.name "ADD") [.name "M"]) [.name "N"]) ∧
      Program.tree "MUL(M, N)" = .ok (.call (.call (.name "MUL") [.name "M"]) [.name "N"]) ∧
      Program.tree "EXP(M, N)" = .ok (.call (.call (.name "EXP") [.name "M"]) [.name "N"]) :=
    ⟨by decide +kernel, by decide +kernel, by decide +kernel⟩
  obtain ⟨i, hadd⟩ := Church.exists_readNumeral_operation htext.1 rfl
    (Church.exists_add (by decide) (by decide) (by decide) rfl hM hN)
  obtain ⟨j, hmul⟩ := Church.exists_readNumeral_operation htext.2.1 rfl (Church.exists_mul hM hN)
  obtain ⟨k, hexp⟩ := Church.exists_readNumeral_operation htext.2.2 rfl (Church.exists_exp hM hN)
  obtain ⟨least, hleast⟩ := Evaluator.exists_least (1 + i + j + k)
  refine ⟨least, fun limit hl => ?_⟩
  have hlimit := hleast limit hl
  have hone : 1 ≤ limit.toNat := by
    have hsize : 2 ≤ UInt64.size := by decide
    omega
  refine ⟨_, Church.run_evaluator m n hone, ?_⟩
  exact ⟨hadd limit (hlimit.imp_left (by omega)), hmul limit (hlimit.imp_left (by omega)),
    hexp limit (hlimit.imp_left (by omega))⟩

end Curried
