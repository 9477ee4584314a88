import Curried.Proofs.Reduction
import Curried.Proofs.WellFormed

namespace Curried

/-- Distinct identifiers are sent to their positions. -/
theorem Ident.map_nth_idxOf {xs : List Ident} (h : xs.Nodup) :
    xs.map (fun x => nth (xs.idxOf x)) = (List.range' 0 xs.length).map nth := by
  apply List.ext_getElem
  · simp
  · intro i hi hi'
    have hlt : i < xs.length := by simpa using hi
    simp [h.idxOf_getElem i hlt]

namespace Term

def rename (f : Ident → Ident) : Term → Term
  | var x => var (f x)
  | free name => free name
  | abs x body => abs (f x) (body.rename f)
  | app callee argument => app (callee.rename f) (argument.rename f)

/-- The term with the position of its binder, in preorder, in place of every identifier. -/
def renumber (t : Term) : Term := t.rename fun x => .nth (t.binders.idxOf x)

theorem rename_id (t : Term) : t.rename id = t := by
  induction t with
  | var x => rfl
  | free name => rfl
  | abs x body ih => rw [rename, ih]; rfl
  | app callee argument ihf iha => rw [rename, ihf, iha]

theorem binders_rename (f : Ident → Ident) (t : Term) : (t.rename f).binders = t.binders.map f := by
  induction t with
  | var x => rfl
  | free name => rfl
  | abs x body ih => rw [rename, binders, ih]; rfl
  | app callee argument ihf iha => rw [rename, binders, ihf, iha, binders, List.map_append]

theorem freeOccurrences_rename (f : Ident → Ident) (t : Term) :
    (t.rename f).freeOccurrences = t.freeOccurrences := by
  induction t with
  | var x => rfl
  | free name => rfl
  | abs x body ih => exact ih
  | app callee argument ihf iha => rw [rename, freeOccurrences, ihf, iha, freeOccurrences]

theorem absCount_of_nameless? {scope : List Ident} {t : Term} {m : Nameless}
    (h : t.nameless? scope = some m) : m.absCount = t.binders.length := by
  induction t generalizing scope m with
  | var x =>
    obtain ⟨i, -, rfl⟩ := Option.map_eq_some_iff.mp h
    rfl
  | free name =>
    cases h
    rfl
  | abs x body ih =>
    obtain ⟨B, hB, rfl⟩ := nameless?_abs_eq_some_iff.mp h
    rw [Nameless.absCount, ih hB, binders, List.length_cons]
  | app callee argument ihf iha =>
    obtain ⟨F, A, hF, hA, rfl⟩ := nameless?_app_eq_some_iff.mp h
    rw [Nameless.absCount, ihf hF, iha hA, binders, List.length_append]

/-- Numbering the nameless form of a term renames the term, if the new binders in preorder are the
identifiers that numbering issues. -/
theorem number_eq_rename {f : Ident → Ident} {scope : List Ident} {k : Nat} {t : Term}
    {m : Nameless} (hm : t.nameless? scope = some m)
    (hf : t.binders.map f = (List.range' k t.binders.length).map .nth) :
    m.number (scope.map f) k = t.rename f := by
  induction t generalizing scope k m with
  | var x =>
    obtain ⟨i, hi, rfl⟩ := Option.map_eq_some_iff.mp hm
    obtain ⟨hlt, rfl, -⟩ := List.idxOf?_eq_some_iff.mp hi
    simp [Nameless.number, rename, hlt]
  | free name =>
    cases hm
    rfl
  | abs x body ih =>
    obtain ⟨B, hB, rfl⟩ := nameless?_abs_eq_some_iff.mp hm
    simp only [binders, List.length_cons, List.range'_succ, List.map_cons] at hf
    obtain ⟨hx, hb⟩ := List.cons.inj hf
    have hi := ih hB hb
    rw [List.map_cons, hx] at hi
    rw [Nameless.number, hi, rename, hx]
  | app callee argument ihf iha =>
    obtain ⟨F, A, hF, hA, rfl⟩ := nameless?_app_eq_some_iff.mp hm
    rw [binders, List.length_append, ← List.range'_append_1, List.map_append, List.map_append] at hf
    obtain ⟨hc, ha⟩ := List.append_inj hf (by simp)
    rw [Nameless.number, absCount_of_nameless? hF, ihf hF hc, iha hA ha, rename]

theorem binders_renumber {t : Term} (h : t.binders.Nodup) :
    t.renumber.binders = (List.range' 0 t.binders.length).map .nth := by
  rw [renumber, binders_rename, Ident.map_nth_idxOf h]

/-- The terms that renumbering leaves as they are. -/
theorem renumber_eq_self_iff {t : Term} (hs : t.Scoped []) (hn : t.binders.Nodup) :
    t.renumber = t ↔ t.binders.map (·.index.toNat) = List.range t.binders.length := by
  have hle := Ident.length_le_of_nodup hn
  constructor
  · intro h
    have hb := binders_renumber hn
    rw [h] at hb
    have hi := congrArg (List.map (·.index.toNat)) hb
    rwa [map_toNat_nth hle] at hi
  · intro h
    have hb : t.binders.map id = (List.range' 0 t.binders.length).map .nth := by
      rw [← List.range_eq_range', ← h, List.map_map]
      exact List.map_congr_left fun x _ => (Ident.nth_toNat x).symm
    -- Numbering gives the term with these binders, and that is the one it started from.
    obtain ⟨m, hm⟩ := Option.isSome_iff_exists.mp (isSome_nameless?_iff.mpr hs)
    have hself : m.number [] 0 = t.rename id := number_eq_rename hm hb
    have hnum : m.number [] 0 = t.renumber := number_eq_rename hm (Ident.map_nth_idxOf hn)
    rw [← hnum, hself, rename_id]

/-- The canonical term of what a term is spelled as. -/
theorem ofExpr_spell_eq_ok_iff {t : Term} (hr : t.Readable []) (hn : t.binders.Nodup)
    {c : Canonical} :
    Canonical.ofExpr .keep t.spell = .ok c ↔
      (∀ x ∈ t.freeOccurrences, Ident.ofName? x = none) ∧
        c = ⟨t.renumber, .ofNat t.binders.length⟩ := by
  have hfree : t.spell.freeOccurrences [] = t.freeOccurrences := freeOccurrences_spell hr
  have hs : t.Scoped [] := (readable_iff.mp hr).1
  obtain ⟨m, hm⟩ := Option.isSome_iff_exists.mp (isSome_nameless?_iff.mpr hs)
  have hnum : m.number [] 0 = t.renumber := number_eq_rename hm (Ident.map_nth_idxOf hn)
  rw [Canonical.ofExpr_eq_ok_iff, paramCount_spell]
  constructor
  · rintro ⟨hadm, m', hm', rfl⟩
    have hf : ∀ x ∈ t.freeOccurrences, Ident.ofName? x = none := by
      intro x hx
      rw [← hfree] at hx
      exact (hadm.free hx).2
    have hk : t.spell.nameless? [] = t.nameless? [] := nameless?_spell hr hf
    rw [hk, hm] at hm'
    obtain rfl := Option.some.inj hm'
    exact ⟨hf, by rw [hnum]⟩
  · rintro ⟨hf, rfl⟩
    have hk : t.spell.nameless? [] = t.nameless? [] := nameless?_spell hr hf
    exact ⟨admissible_spell hr hf, m, hk.trans hm, by rw [hnum]⟩

end Term

/-- A term that is read back has a canonical term again exactly when none of its free names is that
of an identifier. This is the term itself with its binders numbered in preorder, it is the same term
only if they were numbered so before, and it is its own canonical term. -/
theorem recompile_eq_renumber {t : Term} {tree : Expr} (h : t.toExpr = .ok tree) :
    ((∃ c, Canonical.ofExpr .keep tree = .ok c) ↔
        ∀ x ∈ t.freeOccurrences, Ident.ofName? x = none) ∧
      ∀ c, t.recompile = .ok c →
        c.term = t.renumber ∧ c.identifiers = .ofNat t.binders.length ∧
        (c.term = t ↔ t.binders.map (·.index.toNat) = List.range t.binders.length) ∧
        c.term.recompile = .ok c := by
  obtain ⟨hr, hn, rfl⟩ := Term.toExpr_eq_ok_iff.mp h
  obtain ⟨hs, hid, -⟩ := Term.readable_iff.mp hr
  refine ⟨?_, fun c hc => ?_⟩
  · simp only [Term.ofExpr_spell_eq_ok_iff hr hn, exists_and_left, exists_eq, and_true]
  · rw [Term.recompile, h, ok_bind] at hc
    obtain ⟨-, rfl⟩ := (Term.ofExpr_spell_eq_ok_iff hr hn).mp hc
    have hi : ∀ x ∈ t.renumber.freeOccurrences, isIdentifier x = true := by
      rwa [Term.renumber, Term.freeOccurrences_rename]
    have hsize : t.spell.paramCount ≤ UInt64.size := by
      rw [Term.paramCount_spell]
      exact Ident.length_le_of_nodup hn
    refine ⟨rfl, rfl, Term.renumber_eq_self_iff hs hn, ?_⟩
    rw [Term.recompile, Canonical.toExpr_term hsize hc hi, ok_bind,
      Canonical.ofExpr_spell hsize hc hi]

/-- Binders with the identifiers 7, 0 and 3 in preorder, and a free name. -/
theorem recompile_eq_renumber_unordered :
    let t : Term := .app (.abs ⟨7⟩ (.abs ⟨0⟩ (.app (.var ⟨7⟩) (.var ⟨0⟩)))) (.abs ⟨3⟩ (.free "k"))
    let tree : Expr := .call (.lam ["x7"] (.lam ["x0"] (.call (.name "x7") [.name "x0"])))
      [.lam ["x3"] (.name "k")]
    let c : Canonical := ⟨.app (.abs ⟨0⟩ (.abs ⟨1⟩ (.app (.var ⟨0⟩) (.var ⟨1⟩))))
      (.abs ⟨2⟩ (.free "k")), 3⟩
    t.toExpr = .ok tree ∧ t.recompile = .ok c ∧ c.term = t.renumber ∧
      c.identifiers = .ofNat t.binders.length ∧ c.term.recompile = .ok c ∧
      ((∃ c, Canonical.ofExpr .keep tree = .ok c) ↔
        ∀ x ∈ t.freeOccurrences, Ident.ofName? x = none) := by
  intro t tree c
  have h : t.toExpr = .ok tree := by decide +kernel
  have hc : t.recompile = .ok c := by decide +kernel
  obtain ⟨hex, hall⟩ := recompile_eq_renumber h
  obtain ⟨hnum, hcount, -, hfix⟩ := hall c hc
  exact ⟨h, hc, hnum, hcount, hfix, hex⟩

end Curried
