import Curried.Canonical
import Curried.Proofs.Scopes

namespace Curried

namespace Event

def op? : Event → Option (Scopes.Op String Ident)
  | entered _ => some .enter
  | left _ => some .leave
  | compiling _ | compiled .. | allocated _ | keptFree _ | readBack .. => none

def issued? : Event → Option Ident
  | allocated x => some x
  | compiling _ | compiled .. | entered _ | left _ | keptFree _ | readBack .. => none

def ops (events : List Event) : List (Scopes.Op String Ident) := events.filterMap op?

def entries (events : List Event) : Nat := (ops events).countP Scopes.Op.isEnter

def issuedNames (events : List Event) : List String := (events.filterMap issued?).map Ident.name

def warnings (events : List Event) : List Event := events.filter (·.level = .warn)

/-- Events whose scopes are well bracketed. Each scope that is entered is left again. It is entered
at a depth of one more than the number of scopes then open, and the event that matches leaves to a
depth of one less. -/
structure Bracketed (events : List Event) : Prop where
  balanced : Scopes.Balanced (ops events)
  matched : ∀ before d rest, events = before ++ .entered d :: rest →
    d = 1 + Scopes.levels 0 (ops (before ++ [.entered d])) ∧
    ∃ inner after, rest = inner ++ .left (d - 1) :: after ∧ Scopes.Balanced (ops inner)

theorem ops_append (events more : List Event) : ops (events ++ more) = ops events ++ ops more :=
  List.filterMap_append

theorem op?_eq_some_leave_iff {ev : Event} : ev.op? = some .leave ↔ ∃ d, ev = .left d := by
  cases ev <;> simp [op?]

theorem issuedNames_append (events more : List Event) :
    issuedNames (events ++ more) = issuedNames events ++ issuedNames more := by
  rw [issuedNames, List.filterMap_append, List.map_append]
  rfl

def nest (n : Nat) : Event → Option Nat
  | entered d => if d = n + 2 then some (n + 1) else none
  | left d => if 0 < n ∧ d = n then some (n - 1) else none
  | compiling _ | compiled .. | allocated _ | keptFree _ | readBack .. => some n

def nestAll (n : Nat) (events : List Event) : Option Nat := events.foldlM nest n

theorem nest_of_op?_eq_none {ev : Event} (h : ev.op? = none) (n : Nat) : ev.nest n = some n := by
  cases ev with
  | entered d | left d => cases h
  | compiling _ | compiled _ _ | allocated _ | keptFree _ | readBack _ _ => rfl

variable {n m d : Nat} {ev : Event} {events more : List Event}

theorem nest_entered_eq_some_iff : (entered d).nest n = some m ↔ d = n + 2 ∧ m = n + 1 := by
  simp only [nest, Option.ite_none_right_eq_some, Option.some.injEq]
  omega

theorem nest_left_eq_some_iff : (left d).nest n = some m ↔ n = m + 1 ∧ d = m + 1 := by
  simp only [nest, Option.ite_none_right_eq_some, Option.some.injEq]
  omega

theorem levels_of_nest (h : ev.nest n = some m) : Scopes.levels n (ops [ev]) = m := by
  cases ev with
  | entered d => exact (nest_entered_eq_some_iff.mp h).2.symm
  | left d =>
    obtain ⟨rfl, -⟩ := nest_left_eq_some_iff.mp h
    rfl
  | compiling _ | compiled _ _ | allocated _ | keptFree _ | readBack _ _ => exact Option.some.inj h

theorem nestAll_cons_iff :
    nestAll n (ev :: events) = some m ↔ ∃ k, ev.nest n = some k ∧ nestAll k events = some m := by
  rw [nestAll, List.foldlM_cons]
  exact Option.bind_eq_some_iff

theorem nestAll_append_iff :
    nestAll n (events ++ more) = some m ↔
      ∃ k, nestAll n events = some k ∧ nestAll k more = some m := by
  rw [nestAll, List.foldlM_append]
  exact Option.bind_eq_some_iff

theorem nestAll_concat {k : Nat} (h : nestAll n events = some k) (hev : ev.nest k = some m) :
    nestAll n (events ++ [ev]) = some m :=
  nestAll_append_iff.mpr ⟨k, h, nestAll_cons_iff.mpr ⟨m, hev, rfl⟩⟩

theorem levels_of_nestAll (h : nestAll n events = some m) : Scopes.levels n (ops events) = m := by
  induction events generalizing n with
  | nil => exact Option.some.inj h
  | cons ev events ih =>
    obtain ⟨k, hev, hk⟩ := nestAll_cons_iff.mp h
    rw [← List.singleton_append, ops_append, Scopes.levels_append, levels_of_nest hev, ih hk]

/-- If events close a scope around them, there is one among them that leaves it to the depth
outside, and what comes before that one is balanced. -/
theorem exists_left_of_closes (hc : Scopes.Closes (ops events)) (h : nestAll n events = some m) :
    0 < n ∧ ∃ inner after, events = inner ++ .left n :: after ∧ Scopes.Balanced (ops inner) := by
  obtain ⟨first, second, hfirst, hops⟩ := hc
  obtain ⟨inner, later, rfl, rfl, hlater⟩ := List.filterMap_eq_append_iff.mp hops
  obtain ⟨between, ev, after, rfl, hnone, hev, -⟩ := List.filterMap_eq_cons_iff.mp hlater
  obtain ⟨d, rfl⟩ := op?_eq_some_leave_iff.mp hev
  have hbalanced : Scopes.Balanced (ops (inner ++ between)) := by
    have hnil : ops between = [] := List.filterMap_eq_nil_iff.mpr hnone
    rwa [ops_append, hnil, List.append_nil]
  rw [← List.append_assoc] at h ⊢
  obtain ⟨k, hk, hrest⟩ := nestAll_append_iff.mp h
  obtain ⟨j, hj, -⟩ := nestAll_cons_iff.mp hrest
  have hkn : k = n := by rw [← levels_of_nestAll hk, hbalanced.levels_eq]
  obtain ⟨hkj, hd⟩ := nest_left_eq_some_iff.mp hj
  have hdn : d = n := by omega
  exact ⟨by omega, inner ++ between, after, by rw [hdn], hbalanced⟩

theorem bracketed_of_nestAll (h : nestAll 0 events = some 0) : Bracketed events := by
  have hlevels : Scopes.levels 0 (ops events) = 0 := levels_of_nestAll h
  constructor
  · apply Scopes.balanced_of_levels _ hlevels
    intro hc
    exact absurd (exists_left_of_closes hc h).1 (Nat.lt_irrefl 0)
  · rintro before d rest rfl
    obtain ⟨n, hbefore, hafter⟩ := nestAll_append_iff.mp h
    obtain ⟨k, hd, hrest⟩ := nestAll_cons_iff.mp hafter
    have hopen : Scopes.levels 0 (ops (before ++ [.entered d])) = k :=
      levels_of_nestAll (nestAll_concat hbefore hd)
    obtain ⟨rfl, rfl⟩ := nest_entered_eq_some_iff.mp hd
    -- No scope is open in the end, so the one that is entered here is closed.
    have hcloses : Scopes.Closes (ops rest) := by
      apply Scopes.settled_iff_levels.mpr hlevels (ops before)
      simp [ops, op?]
    obtain ⟨-, inner, after, rfl, hinner⟩ := exists_left_of_closes hcloses hrest
    exact ⟨by omega, inner, after, rfl, hinner⟩

/-- The scopes that are still open can be left one after the other. -/
theorem exists_append_bracketed (h : nestAll 0 events = some n) :
    ∃ rest, Bracketed (events ++ rest) := by
  induction n generalizing events with
  | zero =>
    refine ⟨[], ?_⟩
    rw [List.append_nil]
    exact bracketed_of_nestAll h
  | succ n ih =>
    have hleft : (left (n + 1)).nest (n + 1) = some n := nest_left_eq_some_iff.mpr ⟨rfl, rfl⟩
    obtain ⟨rest, hrest⟩ := ih (nestAll_concat h hleft)
    refine ⟨.left (n + 1) :: rest, ?_⟩
    rwa [List.append_cons]

end Event

end Curried
