import Curried.Proofs.ReadBack

namespace Curried

def Term.Scoped (bound : List Ident) : Term → Prop
  | var x => x ∈ bound
  | free _ => True
  | abs x body => body.Scoped (x :: bound)
  | app callee argument => callee.Scoped bound ∧ argument.Scoped bound

/-- The terms that have a nameless form are those in which every variable has a binder. -/
theorem Term.isSome_nameless?_iff {bound : List Ident} {t : Term} :
    (t.nameless? bound).isSome ↔ t.Scoped bound := by
  induction t generalizing bound with
  | var x => simp [nameless?, Scoped, List.isSome_idxOf?]
  | free name => simp [nameless?, Scoped]
  | abs x body ih => simp [nameless?, Scoped, ih]
  | app callee argument ihf iha =>
    rw [Scoped, ← ihf, ← iha, nameless?]
    cases callee.nameless? bound <;> cases argument.nameless? bound <;> simp

def Term.Uncaptured (bound : List Ident) : Term → Prop
  | var _ => True
  | free name => ∀ x ∈ bound, x.name ≠ name
  | abs x body => body.Uncaptured (x :: bound)
  | app callee argument => callee.Uncaptured bound ∧ argument.Uncaptured bound

/-- A term is readable when its variables have binders and its free names are identifiers that no
binder captures. -/
theorem Term.readable_iff {bound : List Ident} {t : Term} :
    t.Readable bound ↔
      t.Scoped bound ∧ (∀ x ∈ t.freeOccurrences, isIdentifier x = true) ∧ t.Uncaptured bound := by
  induction t generalizing bound with
  | var x => simp [Readable, Scoped, freeOccurrences, Uncaptured]
  | free name => simp [Readable, Scoped, freeOccurrences, Uncaptured, Ident.forall_name_ne_iff]
  | abs x body ih => exact ih
  | app callee argument ihf iha =>
    simp only [Readable, ihf, iha, Scoped, Uncaptured, freeOccurrences, List.forall_mem_append]
    tauto

/-- The terms in which every variable lies under its own binder, no two binders are the same, and
every free name is an identifier that no binder around it captures. -/
structure Term.WellFormed (t : Term) : Prop where
  bound : t.Scoped []
  distinct : t.binders.Nodup
  names : ∀ x ∈ t.freeOccurrences, isIdentifier x = true
  uncaptured : t.Uncaptured []

/-- A term is read back exactly when it is well formed. Reading back fails with what is wrong with
the first node in preorder that is at fault, and in no other way. -/
theorem toExpr_succeeds_iff_wellFormed (t : Term) :
    ((∃ e, t.toExpr = .ok e) ↔ t.WellFormed) ∧
      ∀ err, t.toExpr = .error err ↔
        ∃ v, (t.nodes [] []).findSome? Node.violation? = some v ∧ err = .illFormed v := by
  constructor
  · simp only [Term.toExpr_eq_ok_iff, exists_and_left, exists_eq, and_true, Term.readable_iff]
    constructor
    · rintro ⟨⟨hs, hi, hu⟩, hn⟩
      exact ⟨hs, hn, hi, hu⟩
    · rintro ⟨hs, hn, hi, hu⟩
      exact ⟨⟨hs, hi, hu⟩, hn⟩
  · intro err
    rw [Term.toExpr_eq, Term.firstViolation?]
    cases (t.nodes [] []).findSome? Node.violation? <;> simp [eq_comm]

/-- The second binder comes before the variable under it, and both are at fault. -/
example : (Term.app (.abs ⟨0⟩ (.var ⟨0⟩)) (.abs ⟨0⟩ (.var ⟨4⟩))).toExpr =
    .error (.illFormed (.rebound ⟨0⟩)) := rfl

theorem map_toNat_nth {n : Nat} (h : n ≤ UInt64.size) :
    ((List.range' 0 n).map Ident.nth).map (·.index.toNat) = List.range n := by
  rw [List.map_map, List.range_eq_range']
  calc (List.range' 0 n).map ((·.index.toNat) ∘ Ident.nth) = (List.range' 0 n).map id := by
        apply List.map_congr_left
        intro k hk
        rw [List.mem_range'_1] at hk
        exact Ident.toNat_nth (by omega)
    _ = List.range' 0 n := List.map_id _

structure Canonical.WellFormed (c : Canonical) : Prop where
  binders : c.term.binders.map (·.index.toNat) = List.range c.identifiers.toNat
  bound : c.term.Scoped []
  free : ∀ x ∈ c.term.freeOccurrences, Ident.ofName? x = none

theorem Canonical.wellFormed_of_ofExpr {policy : FreeNames} {e : Expr} {c : Canonical}
    (hsize : e.paramCount < UInt64.size) (h : ofExpr policy e = .ok c) : c.WellFormed where
  binders := by
    rw [binders_term h, map_toNat_nth (Nat.le_of_lt hsize), identifiers_eq h,
      UInt64.toNat_ofNat_of_lt' hsize]
  bound := by
    -- The term has a nameless form, and there a variable is the distance to its binder.
    obtain ⟨m, -, -, hm⟩ := nameless?_term (Nat.le_of_lt hsize) h
    exact Term.isSome_nameless?_iff.mp (Option.isSome_of_mem hm)
  free := fun _ hx => (ofName?_of_mem_term h hx).2

/-- The canonical term of an expression with fewer than 2^64 parameters is well formed and has one
identifier for each of them. When free names are rejected, it has none. -/
theorem canonical_term_wellFormed {policy : FreeNames} {e : Expr} {c : Canonical}
    (hsize : e.paramCount < UInt64.size) (h : Canonical.ofExpr policy e = .ok c) :
    c.WellFormed ∧ c.identifiers.toNat = e.paramCount ∧
      (policy = .reject → c.term.freeOccurrences = []) := by
  refine ⟨Canonical.wellFormed_of_ofExpr hsize h, ?_, fun hp => ?_⟩
  · rw [Canonical.identifiers_eq h, UInt64.toNat_ofNat_of_lt' hsize]
  · apply List.eq_nil_iff_forall_not_mem.mpr
    intro x hx
    have hk := (Canonical.ofName?_of_mem_term h hx).1
    rw [hp] at hk
    cases hk

/-- Functions in the callee, in an argument and under a parameter of the same name. -/
theorem canonical_term_wellFormed_nested :
    let e : Expr := .call (.lam ["f", "x"] (.call (.name "f") [.lam ["x"] (.name "x"), .name "x"]))
      [.lam ["y"] (.name "y")]
    let c : Canonical := ⟨.app (.abs ⟨0⟩ (.abs ⟨1⟩ (.app (.app (.var ⟨0⟩) (.abs ⟨2⟩ (.var ⟨2⟩)))
      (.var ⟨1⟩)))) (.abs ⟨3⟩ (.var ⟨3⟩)), 4⟩
    Canonical.ofExpr .reject e = .ok c ∧ c.WellFormed ∧ c.identifiers.toNat = e.paramCount ∧
      c.term.freeOccurrences = [] := by
  intro e c
  have h : Canonical.ofExpr .reject e = .ok c := by decide +kernel
  obtain ⟨hw, hn, hf⟩ := canonical_term_wellFormed (by decide) h
  exact ⟨h, hw, hn, hf rfl⟩

end Curried
