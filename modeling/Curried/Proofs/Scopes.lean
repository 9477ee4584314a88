import Curried.Scopes
import Mathlib.Data.List.Basic

/-!
What scopes hold, and what they hold after any sequence of operations. All bindings at once are
those that lookups find. A key stands for what it was last defined as in a frame that is still
open. The sequence alone tells which frames these are: each `leave` closes the frame of the `enter`
that it matches, and one that matches none fails.
-/

namespace Curried

namespace Scopes

variable {κ α : Type}

section

variable [Ord κ]

theorem lookup_eq_ok_iff [ToString κ] {s : Scopes κ α} {key : κ} {a : α} :
    s.lookup key = .ok a ↔ s.find? key = some a := by
  rw [lookup]
  cases s.find? key <;> simp

theorem lookup_eq_error_iff [ToString κ] {s : Scopes κ α} {key : κ} :
    s.lookup key = .error (.unbound (toString key)) ↔ s.find? key = none := by
  rw [lookup]
  cases s.find? key <;> simp

/-- The innermost frame that binds a key decides, from whichever side the frames are taken. -/
theorem getElem?_flatten [Std.TransOrd κ] (s : Scopes κ α) (key : κ) :
    s.flatten[key]? = s.find? key := by
  rw [flatten, find?]
  induction s.frames with
  | nil => simp
  | cons frame frames ih =>
    rw [List.foldr_cons, Std.TreeMap.getElem?_union, ih, List.findSome?_cons]
    cases frame[key]? <;> rfl

/-- The list of all bindings has the one that a lookup finds. -/
theorem lookup_toList_flatten [Std.TransOrd κ] [Std.LawfulEqOrd κ] [DecidableEq κ]
    (s : Scopes κ α) (key : κ) :
    s.flatten.toList.lookup key = s.find? key := by
  have hmem (a : α) : (key, a) ∈ s.flatten.toList ↔ s.find? key = some a := by
    rw [Std.TreeMap.mem_toList_iff_getElem?_eq_some, getElem?_flatten]
  cases h : s.flatten.toList.lookup key with
  | some a =>
    obtain ⟨before, after, heq, -⟩ := List.lookup_eq_some_iff.mp h
    have ha : (key, a) ∈ s.flatten.toList := by
      rw [heq]
      exact List.mem_append_right before List.mem_cons_self
    exact ((hmem a).mp ha).symm
  | none =>
    cases hfind : s.find? key with
    | none => rfl
    | some a =>
      have hne := List.lookup_eq_none_iff.mp h _ ((hmem a).mpr hfind)
      simp at hne

/-- Flattening binds a key to what a lookup of it gives. It leaves out exactly the keys that are
not contained, whose lookups fail. -/
theorem flatten_agrees_with_lookup [Std.TransOrd κ] [ToString κ] (s : Scopes κ α) (key : κ) :
    (∀ a, s.flatten[key]? = some a ↔ s.lookup key = .ok a) ∧
      (key ∉ s.flatten ↔
        s.contains key = false ∧ s.lookup key = .error (.unbound (toString key))) := by
  constructor
  · intro a
    rw [lookup_eq_ok_iff, getElem?_flatten]
  · rw [Std.TreeMap.mem_iff_isSome_getElem?, lookup_eq_error_iff, getElem?_flatten, contains]
    cases s.find? key <;> simp

/-- A key is bound in two frames and another one in the inner of them. A third is bound in none. -/
theorem flatten_agrees_with_lookup_shadowed :
    let s : Scopes String Nat := (({} : Scopes String Nat).define "x" 1).enter.define "x" 2
    let t := s.define "y" 3
    t.flatten["x"]? = some 2 ∧ t.flatten["y"]? = some 3 ∧ "z" ∉ t.flatten := by
  intro s t
  refine ⟨((flatten_agrees_with_lookup t "x").1 2).mpr rfl,
    ((flatten_agrees_with_lookup t "y").1 3).mpr rfl, ?_⟩
  exact (flatten_agrees_with_lookup t "z").2.mpr ⟨rfl, rfl⟩

theorem length_outer_of_leave {s t : Scopes κ α} (h : s.leave = .ok () t) :
    s.outer.length = t.outer.length + 1 := by
  obtain ⟨inner, outer⟩ := s
  cases outer <;> cases h
  rfl

/-- Leaving the root fails, and what is left then is what was there before. -/
theorem leave_eq_error_iff {s t : Scopes κ α} {e : ScopeError} :
    s.leave = .error e t ↔ e = .onlyRoot ∧ t = s ∧ s.outer.length = 0 := by
  obtain ⟨inner, outer⟩ := s
  cases outer <;> simp [leave, eq_comm]

def findBelow? (s : Scopes κ α) (n : Nat) (key : κ) : Option α :=
  (s.frames.drop n).findSome? (·[key]?)

@[simp] theorem findBelow?_zero (s : Scopes κ α) (key : κ) :
    s.findBelow? 0 key = s.find? key := rfl

end

inductive Op (κ α : Type) where
  | enter
  | leave
  | define (key : κ) (a : α)
  | lookup (key : κ)
  | contains (key : κ)
  | flatten

def Op.level (d : Nat) : Op κ α → Nat
  | enter => d + 1
  | leave => d - 1
  | define .. | lookup _ | contains _ | flatten => d

def levels (d : Nat) (ops : List (Op κ α)) : Nat := ops.foldl Op.level d

@[simp] theorem levels_nil (d : Nat) : levels d ([] : List (Op κ α)) = d := rfl

@[simp] theorem levels_cons (d : Nat) (op : Op κ α) (ops : List (Op κ α)) :
    levels d (op :: ops) = levels (op.level d) ops := rfl

theorem levels_append (d : Nat) (ops more : List (Op κ α)) :
    levels d (ops ++ more) = levels (levels d ops) more :=
  List.foldl_append

def closings (d : Nat) : List (Op κ α) → Nat
  | [] => 0
  | .enter :: ops => closings (d + 1) ops - 1
  | .leave :: ops =>
    match d with
    | 0 => closings 0 ops
    | d + 1 => closings d ops + 1
  | .define .. :: ops | .lookup _ :: ops | .contains _ :: ops | .flatten :: ops => closings d ops

def Op.Local : Op κ α → Prop
  | enter | leave => False
  | define .. | lookup _ | contains _ | flatten => True

inductive Balanced : List (Op κ α) → Prop
  | nil : Balanced []
  | cons {op : Op κ α} {ops : List (Op κ α)} : op.Local → Balanced ops → Balanced (op :: ops)
  | frame {inner ops : List (Op κ α)} :
      Balanced inner → Balanced ops → Balanced (.enter :: inner ++ .leave :: ops)

/-- The frame that is innermost before some operations is closed by one of them: by the first
`leave` that matches no `enter` among them. -/
def Closes (ops : List (Op κ α)) : Prop :=
  ∃ inner rest, Balanced inner ∧ ops = inner ++ .leave :: rest

/-- The frame that is innermost after some operations is opened by one of them: by the last `enter`
that is matched by no `leave` among them. -/
def Opens (ops : List (Op κ α)) : Prop :=
  ∃ before inner, Balanced inner ∧ ops = before ++ .enter :: inner

/-- The frame that is innermost between some operations and others is opened by the former and
closed by the latter, with the matching `leave`. The root is never closed, as nothing opens it. -/
def Closed (before rest : List (Op κ α)) : Prop := Opens before ∧ Closes rest

def Settled (ops : List (Op κ α)) : Prop :=
  ∀ before rest, ops = before ++ .enter :: rest → Closes rest

def ClosesMany : Nat → List (Op κ α) → Prop
  | 0, _ => True
  | n + 1, ops => ∃ inner rest, Balanced inner ∧ ops = inner ++ .leave :: rest ∧ ClosesMany n rest

theorem closesMany_one_iff {ops : List (Op κ α)} : ClosesMany 1 ops ↔ Closes ops := by
  simp only [ClosesMany, Closes, and_true]

theorem closesMany_leave_iff {n : Nat} {ops : List (Op κ α)} :
    ClosesMany (n + 1) (.leave :: ops) ↔ ClosesMany n ops := by
  constructor
  · rintro ⟨inner, rest, hinner, heq, h⟩
    cases hinner with
    | nil =>
      cases heq
      exact h
    | cons hop _ =>
      cases heq
      exact absurd hop id
    | frame _ _ => cases heq
  · intro h
    exact ⟨[], ops, .nil, rfl, h⟩

theorem closesMany_local_iff {n : Nat} {op : Op κ α} (hop : op.Local) {ops : List (Op κ α)} :
    ClosesMany n (op :: ops) ↔ ClosesMany n ops := by
  cases n with
  | zero => rfl
  | succ n =>
    constructor
    · rintro ⟨inner, rest, hinner, heq, h⟩
      cases hinner with
      | nil =>
        cases heq
        exact absurd hop id
      | cons _ hops =>
        cases heq
        exact ⟨_, rest, hops, rfl, h⟩
      | frame _ _ =>
        cases heq
        exact absurd hop id
    · rintro ⟨inner, rest, hinner, rfl, h⟩
      exact ⟨op :: inner, rest, .cons hop hinner, rfl, h⟩

/-- The frame of an `enter` is closed before those around it. -/
theorem closesMany_enter_iff {n : Nat} {ops : List (Op κ α)} :
    ClosesMany (n + 1) (.enter :: ops) ↔ ClosesMany (n + 2) ops := by
  constructor
  · rintro ⟨inner, rest, hinner, heq, h⟩
    cases hinner with
    | nil => cases heq
    | cons hop _ =>
      cases heq
      exact absurd hop id
    | @frame first second hfirst hsecond =>
      rw [List.cons_append, List.cons_append, List.append_assoc, List.cons_append] at heq
      obtain rfl := List.cons.inj heq |>.2
      exact ⟨first, _, hfirst, rfl, second, rest, hsecond, rfl, h⟩
  · rintro ⟨first, _, hfirst, rfl, second, rest, hsecond, rfl, h⟩
    refine ⟨.enter :: first ++ .leave :: second, rest, .frame hfirst hsecond, ?_, h⟩
    simp

theorem Op.enter_or_leave_or_local (op : Op κ α) : op = .enter ∨ op = .leave ∨ op.Local := by
  cases op <;> simp [Local]

theorem Op.level_of_local {op : Op κ α} (hop : op.Local) (d : Nat) : op.level d = d := by
  cases op with
  | enter | leave => exact hop.elim
  | define _ _ | lookup _ | contains _ | flatten => rfl

theorem closings_of_local {op : Op κ α} (hop : op.Local) (d : Nat) (ops : List (Op κ α)) :
    closings d (op :: ops) = closings d ops := by
  cases op with
  | enter | leave => exact hop.elim
  | define _ _ | lookup _ | contains _ | flatten => rfl

/-- Counting finds the frames that are closed by matching operations. -/
theorem le_closings_iff {n d : Nat} {ops : List (Op κ α)} :
    n ≤ closings d ops ↔ n ≤ d ∧ ClosesMany n ops := by
  induction ops generalizing d n with
  | nil => cases n <;> simp [closings, ClosesMany]
  | cons op ops ih =>
    cases n with
    | zero => simp [ClosesMany]
    | succ n =>
      rcases op.enter_or_leave_or_local with rfl | rfl | hop
      · -- One more frame is closed among the operations that follow: the one opened here.
        have hmore : n + 2 ≤ closings (d + 1) ops ↔ n + 2 ≤ d + 1 ∧ ClosesMany (n + 2) ops := ih
        have hsub : n + 1 ≤ closings (d + 1) ops - 1 ↔ n + 2 ≤ closings (d + 1) ops := by omega
        rw [closings, closesMany_enter_iff, hsub, hmore]
        exact and_congr_left fun _ => Nat.succ_le_succ_iff
      · rw [closesMany_leave_iff]
        cases d with
        | zero =>
          rw [closings, ih]
          omega
        | succ d =>
          rw [closings, Nat.add_le_add_iff_right, Nat.add_le_add_iff_right, ih]
      · rw [closings_of_local hop, closesMany_local_iff hop, ih]

theorem closings_le (d : Nat) (ops : List (Op κ α)) : closings d ops ≤ d :=
  (le_closings_iff.mp (Nat.le_refl _)).1

theorem closings_pos_iff {d : Nat} {ops : List (Op κ α)} :
    0 < closings d ops ↔ 0 < d ∧ Closes ops := by
  rw [← closesMany_one_iff]
  exact le_closings_iff

/-- A balanced sequence closes no frame but its own. -/
theorem Balanced.closings_append {ops : List (Op κ α)} (h : Balanced ops) (d : Nat)
    (rest : List (Op κ α)) : closings d (ops ++ rest) = closings d rest := by
  induction h generalizing d rest with
  | nil => rfl
  | cons hop _ ih => rw [List.cons_append, closings_of_local hop, ih]
  | @frame inner ops _ _ ihinner ihops =>
    rw [List.append_assoc, List.cons_append, List.cons_append, closings, ihinner, closings, ihops]
    rfl

theorem Balanced.not_closes {ops : List (Op κ α)} (h : Balanced ops) : ¬ Closes ops := by
  intro hc
  have hpos : 0 < closings 1 ops := closings_pos_iff.mpr ⟨Nat.one_pos, hc⟩
  rw [← List.append_nil ops, h.closings_append] at hpos
  exact absurd hpos (Nat.lt_irrefl 0)

/-- A balanced sequence ends in the frame that it begins in. -/
theorem Balanced.levels_eq {ops : List (Op κ α)} (h : Balanced ops) (d : Nat) :
    levels d ops = d := by
  induction h generalizing d with
  | nil => rfl
  | cons hop _ ih => rw [levels_cons, Op.level_of_local hop, ih]
  | frame _ _ ihinner ihops =>
    rw [levels_append, levels_cons, levels_cons, ihinner, ihops]
    rfl

theorem Opens.append_left {ops : List (Op κ α)} (h : Opens ops) (before : List (Op κ α)) :
    Opens (before ++ ops) := by
  obtain ⟨first, inner, hinner, rfl⟩ := h
  exact ⟨before ++ first, inner, hinner, by rw [List.append_assoc]⟩

/-- Operations that do not close the frame they begin in end in it, or in one that they open. -/
theorem balanced_or_opens (ops : List (Op κ α)) (h : ¬ Closes ops) : Balanced ops ∨ Opens ops := by
  match ops with
  | [] => exact .inl .nil
  | op :: ops =>
    rcases op.enter_or_leave_or_local with rfl | rfl | hop
    · by_cases hc : Closes ops
      · -- The frame that is opened first is closed again, and what follows begins where it did.
        obtain ⟨inner, rest, hinner, rfl⟩ := hc
        have hrest : ¬ Closes rest := by
          rintro ⟨second, rest, hsecond, rfl⟩
          apply h
          refine ⟨.enter :: inner ++ .leave :: second, rest, .frame hinner hsecond, ?_⟩
          simp
        rcases balanced_or_opens rest hrest with hb | ho
        · exact .inl (.frame hinner hb)
        · exact .inr (((ho.append_left [.leave]).append_left inner).append_left [.enter])
      · rcases balanced_or_opens ops hc with hb | ho
        · exact .inr ⟨[], ops, hb, rfl⟩
        · exact .inr (ho.append_left [.enter])
    · exact absurd ⟨[], ops, .nil, rfl⟩ h
    · have hops : ¬ Closes ops := by
        rw [← closesMany_one_iff] at h ⊢
        rwa [closesMany_local_iff hop] at h
      rcases balanced_or_opens ops hops with hb | ho
      · exact .inl (.cons hop hb)
      · exact .inr (ho.append_left [op])
termination_by ops.length

theorem opens_iff_not_settled {ops : List (Op κ α)} : Opens ops ↔ ¬ Settled ops := by
  constructor
  · rintro ⟨before, inner, hinner, rfl⟩ hs
    exact hinner.not_closes (hs before inner rfl)
  · intro hs
    obtain ⟨before, rest, heq, hc⟩ :
        ∃ before rest, ops = before ++ .enter :: rest ∧ ¬ Closes rest := by
      simpa [Settled] using hs
    rw [heq]
    rcases balanced_or_opens rest hc with hb | ho
    · exact ⟨before, rest, hb, rfl⟩
    · exact (ho.append_left [.enter]).append_left before

theorem settled_cons_iff {op : Op κ α} {ops : List (Op κ α)} :
    Settled (op :: ops) ↔ (op = .enter → Closes ops) ∧ Settled ops := by
  constructor
  · intro h
    refine ⟨?_, fun before rest heq => h (op :: before) rest (by rw [heq]; rfl)⟩
    rintro rfl
    exact h [] ops rfl
  · rintro ⟨hop, hops⟩ before rest heq
    rcases List.cons_eq_append_iff.mp heq with ⟨rfl, h⟩ | ⟨before, rfl, h⟩
    · cases h
      exact hop rfl
    · exact hops before rest h

theorem settled_nil : Settled ([] : List (Op κ α)) := by
  intro before rest heq
  simp at heq

/-- Only the root is left when all frames around it have been closed and all new ones as well. -/
theorem levels_eq_zero_iff {d : Nat} {ops : List (Op κ α)} :
    levels d ops = 0 ↔ closings d ops = d ∧ Settled ops := by
  induction ops generalizing d with
  | nil =>
    rw [levels_nil, closings, and_iff_left settled_nil]
    exact eq_comm
  | cons op ops ih =>
    rw [levels_cons, ih, settled_cons_iff]
    rcases op.enter_or_leave_or_local with rfl | rfl | hop
    · -- The frame opened here is closed as well exactly when the `enter` is matched.
      have hpos : 0 < closings (d + 1) ops ↔ Closes ops := by
        rw [closings_pos_iff, and_iff_right (Nat.succ_pos d)]
      have hcount : closings (d + 1) ops = d + 1 ↔
          closings (d + 1) ops - 1 = d ∧ 0 < closings (d + 1) ops := by omega
      rw [closings, Op.level, hcount, hpos, and_assoc, forall_prop_of_true rfl]
    · have hne : Op.leave ≠ (.enter : Op κ α) := by
        intro h
        cases h
      rw [forall_prop_of_false hne, true_and]
      cases d with
      | zero => rfl
      | succ d => rw [closings, Op.level, Nat.add_sub_cancel, Nat.add_right_cancel_iff]
    · have hne : op ≠ .enter := by
        rintro rfl
        exact hop
      rw [closings_of_local hop, Op.level_of_local hop, forall_prop_of_false hne, true_and]

theorem settled_iff_levels {ops : List (Op κ α)} : Settled ops ↔ levels 0 ops = 0 := by
  rw [levels_eq_zero_iff, and_iff_right (Nat.le_zero.mp (closings_le 0 ops))]

/-- A sequence that closes no frame around it and ends in the root is balanced. -/
theorem balanced_of_levels {ops : List (Op κ α)} (hc : ¬ Closes ops) (h : levels 0 ops = 0) :
    Balanced ops := by
  rcases balanced_or_opens ops hc with hb | ho
  · exact hb
  · exact absurd (settled_iff_levels.mpr h) (opens_iff_not_settled.mp ho)

/-- The frame of a definition has been closed when the count of the operations after it says so. -/
theorem closed_iff {before rest : List (Op κ α)} :
    Closed before rest ↔ closings (levels 0 before) rest ≠ 0 := by
  rw [Closed, opens_iff_not_settled, settled_iff_levels, ← Nat.pos_iff_ne_zero, closings_pos_iff,
    Nat.pos_iff_ne_zero]

section

variable [DecidableEq κ]

def Op.defines? (key : κ) : Op κ α → Option α
  | define x a => if x = key then some a else none
  | enter | leave | lookup _ | contains _ | flatten => none

def latest? (key : κ) (d : Nat) : List (Op κ α) → Option α
  | [] => none
  | op :: ops =>
    (latest? key (op.level d) ops).or (if closings d ops = 0 then op.defines? key else none)

theorem Op.defines?_eq_some_iff {op : Op κ α} {key : κ} {a : α} :
    op.defines? key = some a ↔ op = .define key a := by
  cases op <;> simp [defines?]

theorem latest?_eq_none_iff {key : κ} {d : Nat} {ops : List (Op κ α)} :
    latest? key d ops = none ↔
      ∀ before a rest, ops = before ++ .define key a :: rest →
        closings (levels d before) rest ≠ 0 := by
  induction ops generalizing d with
  | nil => simp [latest?]
  | cons op ops ih =>
    rw [latest?, Option.or_eq_none_iff, ih]
    constructor
    · rintro ⟨hops, hop⟩ before a rest heq
      rcases List.cons_eq_append_iff.mp heq with ⟨rfl, h⟩ | ⟨before, rfl, h⟩
      · -- The definition is the first operation itself.
        intro hopen
        cases h
        rw [levels_nil] at hopen
        rw [if_pos hopen, Op.defines?_eq_some_iff.mpr rfl] at hop
        cases hop
      · exact hops before a rest h
    · intro h
      refine ⟨fun before a rest heq => h (op :: before) a rest (by rw [heq]; rfl), ?_⟩
      split
      · next hopen =>
        cases hop : op.defines? key with
        | none => rfl
        | some a => exact absurd hopen (h [] a ops (by rw [Op.defines?_eq_some_iff.mp hop]; rfl))
      · rfl

theorem latest?_eq_some_iff {key : κ} {d : Nat} {ops : List (Op κ α)} {a : α} :
    latest? key d ops = some a ↔
      ∃ before rest, ops = before ++ .define key a :: rest ∧
        closings (levels d before) rest = 0 ∧ latest? key (levels d before) rest = none := by
  induction ops generalizing d with
  | nil => simp [latest?]
  | cons op ops ih =>
    rw [latest?, Option.or_eq_some_iff, ih]
    constructor
    · rintro (⟨before, rest, rfl, h⟩ | ⟨hnone, hop⟩)
      · exact ⟨op :: before, rest, rfl, h⟩
      · split at hop
        · next hopen =>
          obtain rfl := Op.defines?_eq_some_iff.mp hop
          exact ⟨[], ops, rfl, hopen, hnone⟩
        · cases hop
    · rintro ⟨before, rest, heq, hopen, hnone⟩
      rcases List.cons_eq_append_iff.mp heq with ⟨rfl, h⟩ | ⟨before, rfl, h⟩
      · cases h
        rw [levels_nil] at hopen hnone
        refine .inr ⟨hnone, ?_⟩
        rw [if_pos hopen, Op.defines?_eq_some_iff]
      · exact .inl ⟨before, rest, h, hopen, hnone⟩

end

/-- The value of the latest definition of a key whose frame is still open after all operations. -/
def IsLatestOpen (ops : List (Op κ α)) (key : κ) (a : α) : Prop :=
  ∃ before rest, ops = before ++ .define key a :: rest ∧ ¬ Closed before rest ∧
    ∀ between b last, rest = between ++ .define key b :: last →
      Closed (before ++ .define key a :: between) last

def Op.isEnter : Op κ α → Bool
  | enter => true
  | leave | define .. | lookup _ | contains _ | flatten => false

section

variable [Ord κ] [ToString κ]

def perform (s : Scopes κ α) : Op κ α → EStateM.Result ScopeError (Scopes κ α) Unit
  | .enter => .ok () s.enter
  | .leave => s.leave
  | .define key a => .ok () (s.define key a)
  | .lookup key =>
    match s.lookup key with
    | .ok _ => .ok () s
    | .error e => .error e s
  | .contains _ | .flatten => .ok () s

def next (s : Scopes κ α) (op : Op κ α) : Scopes κ α :=
  match s.perform op with
  | .ok _ t | .error _ t => t

def after (s : Scopes κ α) (ops : List (Op κ α)) : Scopes κ α := ops.foldl next s

@[simp] theorem after_cons (s : Scopes κ α) (op : Op κ α) (ops : List (Op κ α)) :
    s.after (op :: ops) = (s.next op).after ops := rfl

@[simp] theorem next_lookup (s : Scopes κ α) (key : κ) : s.next (.lookup key) = s := by
  simp only [next, perform]
  cases s.lookup key <;> rfl

theorem length_outer_next (s : Scopes κ α) (op : Op κ α) :
    (s.next op).outer.length = op.level s.outer.length := by
  cases op with
  | leave =>
    obtain ⟨inner, outer⟩ := s
    cases outer <;> rfl
  | lookup key => rw [next_lookup]; rfl
  | enter | define _ _ | contains _ | flatten => rfl

theorem length_outer_after (s : Scopes κ α) (ops : List (Op κ α)) :
    (s.after ops).outer.length = levels s.outer.length ops := by
  induction ops generalizing s with
  | nil => rfl
  | cons op ops ih => rw [after_cons, levels_cons, ih, length_outer_next]

def exits (s : Scopes κ α) : Op κ α → Bool
  | .leave =>
    match s.leave with
    | .ok .. => true
    | .error .. => false
  | .enter | .define .. | .lookup _ | .contains _ | .flatten => false

def exitCount (s : Scopes κ α) : List (Op κ α) → Nat
  | [] => 0
  | op :: ops => (s.next op).exitCount ops + if s.exits op then 1 else 0

theorem depth_next (s : Scopes κ α) (op : Op κ α) :
    ((s.next op).depth + if s.exits op then 1 else 0) = s.depth + if op.isEnter then 1 else 0 := by
  cases op with
  | leave =>
    obtain ⟨inner, outer⟩ := s
    cases outer <;> rfl
  | lookup key => rw [next_lookup]; rfl
  | enter | define _ _ | contains _ | flatten => rfl

theorem depth_after (s : Scopes κ α) (ops : List (Op κ α)) :
    (s.after ops).depth + s.exitCount ops = s.depth + ops.countP Op.isEnter := by
  induction ops generalizing s with
  | nil => rfl
  | cons op ops ih =>
    have hop := depth_next s op
    have hops := ih (s.next op)
    rw [after_cons, exitCount, List.countP_cons]
    omega

/-- After an operation the frames that stay open bind a key as before, unless the operation defines
it in one of them. -/
theorem findBelow?_next [Std.TransOrd κ] [Std.LawfulEqOrd κ] [DecidableEq κ]
    (s : Scopes κ α) (op : Op κ α) (ops : List (Op κ α)) (key : κ) :
    (s.next op).findBelow? (closings (op.level s.outer.length) ops) key =
      (if closings s.outer.length ops = 0 then op.defines? key else none).or
        (s.findBelow? (closings s.outer.length (op :: ops)) key) := by
  cases op with
  | enter =>
    simp only [Op.level, closings, Op.defines?, ite_self, Option.none_or]
    cases closings (s.outer.length + 1) ops with
    | zero => exact find?_enter s key
    | succ n => rfl
  | leave =>
    simp only [Op.defines?, ite_self, Option.none_or]
    obtain ⟨inner, outer⟩ := s
    cases outer <;> rfl
  | define x a =>
    -- Only the innermost frame changes. Once it is closed the definition makes no difference.
    simp only [Op.level, closings, Op.defines?]
    cases closings s.outer.length ops with
    | zero =>
      refine (find?_define s x key a).trans ?_
      by_cases hx : x = key <;> simp [hx]
    | succ n => rfl
  | lookup x => simp only [next_lookup, Op.level, closings, Op.defines?, ite_self, Option.none_or]
  | contains x | flatten =>
    simp only [Op.level, closings, Op.defines?, ite_self, Option.none_or]
    rfl

/-- After any operations a key stands for what its latest definition says whose frame stays open.
If there is none it stands for what it stood for in the frames that have stayed open. -/
theorem find?_after [Std.TransOrd κ] [Std.LawfulEqOrd κ] [DecidableEq κ]
    (s : Scopes κ α) (ops : List (Op κ α)) (key : κ) :
    (s.after ops).find? key =
      (latest? key s.outer.length ops).or (s.findBelow? (closings s.outer.length ops) key) := by
  induction ops generalizing s with
  | nil => rfl
  | cons op ops ih =>
    rw [after_cons, ih, length_outer_next, latest?, Option.or_assoc, findBelow?_next]

/-- Nothing is bound before the first operation, so its definitions decide. -/
theorem find?_after_empty [Std.TransOrd κ] [Std.LawfulEqOrd κ] [DecidableEq κ]
    (ops : List (Op κ α)) (key : κ) :
    (({} : Scopes κ α).after ops).find? key = latest? key 0 ops := by
  have hroot : closings 0 ops = 0 := Nat.le_zero.mp (closings_le 0 ops)
  have hempty : ({} : Scopes κ α).find? key = none := by simp [find?, frames]
  rw [find?_after]
  change (latest? key 0 ops).or (({} : Scopes κ α).findBelow? (closings 0 ops) key) = _
  rw [hroot, findBelow?_zero, hempty, Option.or_none]

/-- The scopes after any operations, from the empty root on. A lookup gives the value of the latest
definition of the key whose frame is still open, and fails if there is none. A `leave` fails
exactly when each `enter` has been matched, and then changes nothing. The depth is one more than the
number of operations that opened a frame less those that closed one, so it is never zero. -/
theorem lookup_eq_latest_open [Std.TransOrd κ] [Std.LawfulEqOrd κ] (ops : List (Op κ α)) :
    let s := ({} : Scopes κ α).after ops
    (∀ key a, s.lookup key = .ok a ↔ IsLatestOpen ops key a) ∧
    (∀ key, s.lookup key = .error (.unbound (toString key)) ↔
      ∀ before a rest, ops = before ++ .define key a :: rest → Closed before rest) ∧
    (∀ e t, s.leave = .error e t ↔ e = .onlyRoot ∧ t = s ∧ Settled ops) ∧
    (Settled ops → s.next .leave = s) ∧
    s.depth + ({} : Scopes κ α).exitCount ops = 1 + ops.countP Op.isEnter ∧ 1 ≤ s.depth := by
  classical
  intro s
  have hleave : ∀ e t, s.leave = .error e t ↔ e = .onlyRoot ∧ t = s ∧ Settled ops := by
    intro e t
    rw [leave_eq_error_iff, length_outer_after, settled_iff_levels]
    rfl
  refine ⟨?_, ?_, hleave, ?_, depth_after {} ops, s.depth_pos⟩
  · intro key a
    rw [lookup_eq_ok_iff, find?_after_empty, latest?_eq_some_iff, IsLatestOpen]
    simp only [latest?_eq_none_iff, closed_iff, not_not, levels, List.foldl_append, List.foldl_cons]
    rfl
  · intro key
    rw [lookup_eq_error_iff, find?_after_empty, latest?_eq_none_iff]
    simp only [closed_iff]
  · intro hs
    rw [next, perform, (hleave _ _).mpr ⟨rfl, rfl, hs⟩]

/-- A key is defined in the root, twice in one frame and once in a frame inside it. When both
frames are closed it stands for the first value again, and one more `leave` fails as the one at the
start did. -/
theorem lookup_eq_latest_open_shadowed :
    let ops : List (Op String Nat) := [.leave, .define "x" 1, .enter, .define "x" 2, .lookup "x",
      .enter, .define "x" 3, .leave, .define "x" 4, .flatten, .leave]
    let again := ops ++ [.leave, .enter, .define "y" 5, .contains "x"]
    IsLatestOpen (ops.take 9) "x" 4 ∧ Settled ops ∧
      (({} : Scopes String Nat).after ops).depth = 1 ∧
      IsLatestOpen again "x" 1 ∧ IsLatestOpen again "y" 5 ∧ ¬ Settled again := by
  intro ops again
  obtain ⟨hinner, -⟩ := lookup_eq_latest_open (ops.take 9)
  obtain ⟨-, -, hroot, -, hdepth, -⟩ := lookup_eq_latest_open ops
  obtain ⟨hlookup, -, hleave, -⟩ := lookup_eq_latest_open again
  have hcount : (({} : Scopes String Nat).after ops).depth + 2 = 1 + 2 := hdepth
  refine ⟨(hinner "x" 4).mp rfl, ((hroot .onlyRoot _).mp rfl).2.2, Nat.add_right_cancel hcount,
    (hlookup "x" 1).mp rfl, (hlookup "y" 5).mp rfl, ?_⟩
  intro hs
  cases (hleave .onlyRoot _).mpr ⟨rfl, rfl, hs⟩

end

end Scopes

end Curried
