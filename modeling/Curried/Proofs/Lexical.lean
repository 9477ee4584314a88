import Curried.Proofs.ReadBack
import Mathlib.Data.List.Induction
import Mathlib.Data.List.Sort

namespace Curried

/-- A canonical term has the nameless form of its expression: a name is bound by the innermost
function around it that has a parameter of this name, and stays as it is if there is none. No two
parameters may get the same one of the 2^64 identifiers. -/
theorem names_resolve_lexically {policy : FreeNames} {e : Expr} {c : Canonical}
    (hsize : e.paramCount ≤ UInt64.size) (h : Canonical.ofExpr policy e = .ok c) :
    ∃ m, e.nameless? [] = some m ∧ c.term.nameless? [] = some m := by
  obtain ⟨m, hm, -, hc⟩ := Canonical.nameless?_term hsize h
  exact ⟨m, hm, hc⟩

/-- A parameter that is bound again in an argument, and is visible again in the next one. -/
theorem names_resolve_lexically_rebound :
    let e : Expr := .lam ["x", "f"]
      (.call (.name "f") [.lam ["x"] (.name "x"), .name "x", .name "k"])
    let t : Term := .abs ⟨0⟩ (.abs ⟨1⟩ (.app (.app (.app (.var ⟨1⟩) (.abs ⟨2⟩ (.var ⟨2⟩)))
      (.var ⟨0⟩)) (.free "k")))
    let m : Nameless := .abs (.abs (.app (.app (.app (.bound 0) (.abs (.bound 0)))
      (.bound 1)) (.free "k")))
    Canonical.ofExpr .keep e = .ok ⟨t, 3⟩ ∧ e.nameless? [] = some m ∧ t.nameless? [] = some m := by
  intro e t m
  have h : Canonical.ofExpr .keep e = .ok ⟨t, 3⟩ := by rfl
  have he : e.nameless? [] = some m := by rfl
  obtain ⟨m', hm', ht⟩ := names_resolve_lexically (by decide) h
  exact ⟨h, he, ht.trans (hm'.symm.trans he)⟩

theorem Term.isClosed_iff {t : Term} : t.isClosed = true ↔ t.freeOccurrences = [] := by
  simp only [isClosed, freeNames, List.isEmpty_iff, List.eq_nil_iff_forall_not_mem,
    List.mem_eraseDups]

/-- An expression has a canonical term with free names rejected exactly when it has this term with
free names kept, and the term is closed. -/
theorem reject_iff_keep_and_closed (e : Expr) (c : Canonical) :
    Canonical.ofExpr .reject e = .ok c ↔
      Canonical.ofExpr .keep e = .ok c ∧ c.term.isClosed = true := by
  rw [Term.isClosed_iff]
  -- The policy decides which expressions are admissible, and nothing about their terms.
  constructor
  · intro h
    obtain ⟨hadm, hrest⟩ := Canonical.ofExpr_eq_ok_iff.mp h
    obtain ⟨hkeep, hfree⟩ := Expr.admissible_reject_iff.mp hadm
    refine ⟨Canonical.ofExpr_eq_ok_iff.mpr ⟨hkeep, hrest⟩, ?_⟩
    rw [Canonical.freeOccurrences_term h]
    exact hfree
  · rintro ⟨h, hfree⟩
    rw [Canonical.freeOccurrences_term h] at hfree
    obtain ⟨hadm, hrest⟩ := Canonical.ofExpr_eq_ok_iff.mp h
    have hreject := Expr.admissible_reject_iff.mpr ⟨hadm, hfree⟩
    exact Canonical.ofExpr_eq_ok_iff.mpr ⟨hreject, hrest⟩

/-- The list `names` keeps of `l` the first occurrence of every entry: it has the same entries, each
of them once, in the order in which they are met first. -/
structure FirstOccurrences (l names : List String) : Prop where
  mem : ∀ x, x ∈ names ↔ x ∈ l
  nodup : names.Nodup
  order : names.Pairwise fun x y => l.idxOf x < l.idxOf y

/-- A further entry is kept unless it is there already. -/
theorem eraseDups_concat (l : List String) (a : String) :
    (l ++ [a]).eraseDups = if a ∈ l then l.eraseDups else l.eraseDups ++ [a] := by
  rw [List.eraseDups_append]
  by_cases ha : a ∈ l <;> simp [List.removeAll, List.eraseDups_cons, ha]

theorem pairwise_eraseDups (l : List String) :
    l.eraseDups.Pairwise fun x y => l.idxOf x < l.idxOf y := by
  induction l using List.reverseRecOn with
  | nil => simp
  | append_singleton l a ih =>
    have hsame : ∀ x ∈ l, (l ++ [a]).idxOf x = l.idxOf x := fun x hx =>
      List.idxOf_append_of_mem hx
    have hold : l.eraseDups.Pairwise fun x y => (l ++ [a]).idxOf x < (l ++ [a]).idxOf y := by
      apply ih.imp_of_mem
      intro x y hx hy hlt
      rw [hsame x (List.mem_eraseDups.mp hx), hsame y (List.mem_eraseDups.mp hy)]
      exact hlt
    rw [eraseDups_concat]
    split
    · exact hold
    · next ha =>
      rw [List.pairwise_append]
      refine ⟨hold, List.pairwise_singleton _ _, ?_⟩
      intro x hx y hy
      obtain rfl := List.mem_singleton.mp hy
      have hx := List.mem_eraseDups.mp hx
      rw [hsame x hx, List.idxOf_append_of_notMem ha]
      have := List.idxOf_lt_length_of_mem hx
      omega

/-- There is one list of first occurrences. -/
theorem firstOccurrences_iff {l names : List String} :
    FirstOccurrences l names ↔ names = l.eraseDups := by
  constructor
  · intro h
    have : Std.Irrefl fun x y => l.idxOf x < l.idxOf y := ⟨fun x => Nat.lt_irrefl _⟩
    have : Std.Antisymm fun x y => l.idxOf x < l.idxOf y :=
      ⟨fun x y hxy hyx => absurd hyx (Nat.lt_asymm hxy)⟩
    apply h.order.eq_of_mem_iff (pairwise_eraseDups l)
    intro x
    rw [h.mem, List.mem_eraseDups]
  · rintro rfl
    refine ⟨fun x => List.mem_eraseDups, ?_, pairwise_eraseDups l⟩
    apply (pairwise_eraseDups l).imp
    rintro x y hlt rfl
    exact Nat.lt_irrefl _ hlt

/-- The free names of a canonical term are those of its expression and of the expression that it is
read back as: the first occurrences of the names that no function around them binds. -/
theorem freeNames_are_lexically_free {policy : FreeNames} {e : Expr} {c : Canonical}
    (h : Canonical.ofExpr policy e = .ok c) :
    c.term.freeNames = e.freeNames ∧
      (∀ tree, c.term.toExpr = .ok tree → tree.freeNames = e.freeNames) ∧
      ∀ names, names = e.freeNames ↔ FirstOccurrences (e.freeOccurrences []) names := by
  have hfree := Canonical.freeOccurrences_term h
  refine ⟨?_, ?_, ?_⟩
  · rw [Term.freeNames, hfree, Expr.freeNames]
  · intro tree ht
    obtain ⟨hr, -, rfl⟩ := Term.toExpr_eq_ok_iff.mp ht
    have hspell := Term.freeOccurrences_spell hr
    rw [List.map_nil] at hspell
    rw [Expr.freeNames, hspell, hfree, Expr.freeNames]
  · intro names
    exact firstOccurrences_iff.symm

/-- A name that is free as the callee, bound in an argument and free again in the next one. -/
theorem freeNames_are_lexically_free_again :
    let e : Expr := .call (.name "g") [.lam ["g"] (.call (.name "g") [.name "h"]), .name "k",
      .name "g", .name "h"]
    let t : Term := .app (.app (.app (.app (.free "g")
      (.abs ⟨0⟩ (.app (.var ⟨0⟩) (.free "h")))) (.free "k")) (.free "g")) (.free "h")
    Canonical.ofExpr .keep e = .ok ⟨t, 1⟩ ∧ t.freeNames = ["g", "h", "k"] ∧
      t.spell.freeNames = ["g", "h", "k"] ∧
      FirstOccurrences (e.freeOccurrences []) ["g", "h", "k"] := by
  intro e t
  have h : Canonical.ofExpr .keep e = .ok ⟨t, 1⟩ := by rfl
  have ht : t.toExpr = .ok t.spell := by rfl
  have he : ["g", "h", "k"] = e.freeNames := by rfl
  obtain ⟨hterm, htree, hfirst⟩ := freeNames_are_lexically_free h
  rw [he]
  exact ⟨h, hterm, htree _ ht, (hfirst _).mp rfl⟩

end Curried
