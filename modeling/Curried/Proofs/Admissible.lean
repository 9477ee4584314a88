import Curried.Canonical
import Curried.Proofs.Numbering
import Mathlib.Data.List.Basic

namespace Curried

namespace Expr

mutual
/-- Names in scope are what matters about a scope. -/
theorem freeOccurrences_congr {s t : List String} (h : ∀ x, x ∈ s ↔ x ∈ t) (e : Expr) :
    e.freeOccurrences s = e.freeOccurrences t := by
  match e with
  | .name x => simp [freeOccurrences, h]
  | .int _ => simp [freeOccurrences]
  | .lam params body =>
    simp only [freeOccurrences]
    exact freeOccurrences_congr (fun x => by simp [h]) body
  | .call callee args =>
    simp only [freeOccurrences, freeOccurrences_congr h callee, freeOccurrencesAll_congr h args]
theorem freeOccurrencesAll_congr {s t : List String} (h : ∀ x, x ∈ s ↔ x ∈ t) (as : List Expr) :
    freeOccurrencesAll s as = freeOccurrencesAll t as := by
  match as with
  | [] => simp [freeOccurrencesAll]
  | a :: as =>
    simp only [freeOccurrencesAll, freeOccurrences_congr h a, freeOccurrencesAll_congr h as]
end

theorem freeOccurrences_reverse (params scope : List String) (e : Expr) :
    e.freeOccurrences (params.reverse ++ scope) = e.freeOccurrences (params ++ scope) :=
  freeOccurrences_congr (fun x => by simp) e

structure Kept (scope params : Nat) (frees : List String) (m : Nameless) : Prop where
  below : m.Below scope
  absCount : m.absCount = params
  freeOccurrences : m.freeOccurrences = frees

mutual
theorem kept_of_nameless? {scope : List String} {e : Expr} {m : Nameless}
    (h : e.nameless? scope = some m) :
    Kept scope.length e.paramCount (e.freeOccurrences scope) m := by
  match e with
  | .name x =>
    simp only [nameless?, Option.some.injEq] at h
    cases hx : scope.idxOf? x with
    | none =>
      rw [hx] at h
      subst h
      have hm : x ∉ scope := List.idxOf?_eq_none_iff.mp hx
      exact ⟨trivial, rfl, by simp [Nameless.freeOccurrences, freeOccurrences, hm]⟩
    | some i =>
      rw [hx] at h
      subst h
      obtain ⟨hi, hg, -⟩ := List.idxOf?_eq_some_iff.mp hx
      have hm : x ∈ scope := hg ▸ List.getElem_mem hi
      exact ⟨hi, rfl, by simp [Nameless.freeOccurrences, freeOccurrences, hm]⟩
  | .int _ => cases h
  | .lam params body =>
    simp only [nameless?] at h
    obtain ⟨b, hb, rfl⟩ := Option.map_eq_some_iff.mp h
    have hk := kept_of_nameless? hb
    refine ⟨Nameless.below_absMany.mpr ?_, ?_, ?_⟩
    · simpa using hk.below
    · rw [Nameless.absCount_absMany, hk.absCount, paramCount]
    · rw [Nameless.freeOccurrences_absMany, hk.freeOccurrences, freeOccurrences_reverse,
        freeOccurrences]
  | .call callee args =>
    simp only [nameless?] at h
    obtain ⟨f, hf, h⟩ := Option.bind_eq_some_iff.mp h
    have hk := kept_of_namelessArgs? (kept_of_nameless? hf) h
    exact ⟨hk.below, by rw [hk.absCount, paramCount], by rw [hk.freeOccurrences, freeOccurrences]⟩
theorem kept_of_namelessArgs? {scope : List String} {as : List Expr} {f m : Nameless} {n : Nat}
    {frees : List String} (hf : Kept scope.length n frees f)
    (h : namelessArgs? scope f as = some m) :
    Kept scope.length (n + paramCounts as) (frees ++ freeOccurrencesAll scope as) m := by
  match as with
  | [] =>
    simp only [namelessArgs?, Option.some.injEq] at h
    subst h
    simpa [paramCounts, freeOccurrencesAll] using hf
  | a :: as =>
    simp only [namelessArgs?] at h
    obtain ⟨b, hb, h⟩ := Option.bind_eq_some_iff.mp h
    have hk := kept_of_nameless? hb
    have hc : Kept scope.length (n + a.paramCount) (frees ++ a.freeOccurrences scope) (.app f b) :=
      ⟨⟨hf.below, hk.below⟩, by rw [Nameless.absCount, hf.absCount, hk.absCount],
        by rw [Nameless.freeOccurrences, hf.freeOccurrences, hk.freeOccurrences]⟩
    have hr := kept_of_namelessArgs? hc h
    simpa [paramCounts, freeOccurrencesAll, Nat.add_assoc] using hr
end

mutual
/-- The expressions that have a term under parameters `scope`: functions have distinct parameters
and calls have arguments, at least one each, there are no integers, and a free name is kept and not
that of an identifier. -/
def Admissible (policy : FreeNames) (scope : List String) : Expr → Prop
  | .name x => x ∈ scope ∨ policy = .keep ∧ Ident.ofName? x = none
  | .int _ => False
  | .lam params body =>
    params ≠ [] ∧ params.Nodup ∧ body.Admissible policy (params.reverse ++ scope)
  | .call callee args =>
    args ≠ [] ∧ callee.Admissible policy scope ∧ AdmissibleAll policy scope args
def AdmissibleAll (policy : FreeNames) (scope : List String) : List Expr → Prop
  | [] => True
  | a :: as => a.Admissible policy scope ∧ AdmissibleAll policy scope as
end

mutual
def Shaped : Expr → Prop
  | .name _ => True
  | .int _ => False
  | .lam params body => params ≠ [] ∧ params.Nodup ∧ body.Shaped
  | .call callee args => args ≠ [] ∧ callee.Shaped ∧ ShapedAll args
def ShapedAll : List Expr → Prop
  | [] => True
  | a :: as => a.Shaped ∧ ShapedAll as
end

mutual
/-- Scopes and what becomes of free names matter only for the names that are free. -/
theorem admissible_iff {policy : FreeNames} {scope : List String} (e : Expr) :
    e.Admissible policy scope ↔
      e.Shaped ∧ ∀ x ∈ e.freeOccurrences scope, policy = .keep ∧ Ident.ofName? x = none := by
  match e with
  | .name x =>
    by_cases hx : x ∈ scope <;> simp [Admissible, Shaped, freeOccurrences, hx]
  | .int n => simp [Admissible, Shaped]
  | .lam params body =>
    rw [Admissible, admissible_iff body, freeOccurrences_reverse, Shaped, freeOccurrences,
      and_assoc, and_assoc]
  | .call callee args =>
    rw [Admissible, admissible_iff callee, admissibleAll_iff args, Shaped, freeOccurrences,
      List.forall_mem_append]
    tauto
theorem admissibleAll_iff {policy : FreeNames} {scope : List String} (as : List Expr) :
    AdmissibleAll policy scope as ↔
      ShapedAll as ∧
        ∀ x ∈ freeOccurrencesAll scope as, policy = .keep ∧ Ident.ofName? x = none := by
  match as with
  | [] => simp [AdmissibleAll, ShapedAll, freeOccurrencesAll]
  | a :: as =>
    rw [AdmissibleAll, admissible_iff a, admissibleAll_iff as, ShapedAll, freeOccurrencesAll,
      List.forall_mem_append]
    tauto
end

/-- The free names of an admissible expression are kept, and none is that of an identifier. -/
theorem Admissible.free {policy : FreeNames} {scope : List String} {e : Expr}
    (h : e.Admissible policy scope) {x : String} (hx : x ∈ e.freeOccurrences scope) :
    policy = .keep ∧ Ident.ofName? x = none :=
  ((admissible_iff e).mp h).2 x hx

/-- Rejecting free names refuses exactly the expressions that have some. -/
theorem admissible_reject_iff {scope : List String} {e : Expr} :
    e.Admissible .reject scope ↔ e.Admissible .keep scope ∧ e.freeOccurrences scope = [] := by
  rw [admissible_iff, admissible_iff]
  constructor
  · rintro ⟨hs, hfree⟩
    have hnil : e.freeOccurrences scope = [] := by
      apply List.eq_nil_iff_forall_not_mem.mpr
      intro x hx
      cases (hfree x hx).1
    exact ⟨⟨hs, by simp [hnil]⟩, hnil⟩
  · rintro ⟨⟨hs, -⟩, hnil⟩
    exact ⟨hs, by simp [hnil]⟩

def repeats (earlier : List String) : List String → List String
  | [] => []
  | p :: ps => if p ∈ earlier then p :: repeats (p :: earlier) ps else repeats (p :: earlier) ps

def freeFaults : FreeNames → String → List CanonicalError
  | .reject, x => [.scope (.unbound x)]
  | .keep, x => if (Ident.ofName? x).isSome then [.unsupported (.canonicalFreeName x)] else []

mutual
def faults (policy : FreeNames) (scope : List String) : Expr → List CanonicalError
  | .name x => if x ∈ scope then [] else freeFaults policy x
  | .int n => [.unsupported (.literal n)]
  | .lam params body =>
    (if params.isEmpty then [.unsupported .noParameters] else []) ++
      ((repeats [] params).map (fun p => .unsupported (.repeatedParameter p)) ++
        body.faults policy (params.reverse ++ scope))
  | .call callee args =>
    (if args.isEmpty then [.unsupported .noArguments] else []) ++
      (callee.faults policy scope ++ faultsAll policy scope args)
def faultsAll (policy : FreeNames) (scope : List String) : List Expr → List CanonicalError
  | [] => []
  | a :: as => a.faults policy scope ++ faultsAll policy scope as
end

theorem repeats_eq_nil_iff {earlier ps : List String} :
    repeats earlier ps = [] ↔ (∀ p ∈ ps, p ∉ earlier) ∧ ps.Nodup := by
  induction ps generalizing earlier with
  | nil => simp [repeats]
  | cons p ps ih =>
    rw [List.forall_mem_cons, List.nodup_cons]
    by_cases hp : p ∈ earlier
    · simp [repeats, hp]
    · simp only [repeats, hp, ↓reduceIte, ih, not_false_eq_true, true_and]
      constructor
      · rintro ⟨h, hn⟩
        refine ⟨fun q hq hm => h q hq (List.mem_cons_of_mem p hm), ?_, hn⟩
        exact fun hm => h p hm List.mem_cons_self
      · rintro ⟨h, hp, hn⟩
        refine ⟨fun q hq hm => ?_, hn⟩
        rcases List.mem_cons.mp hm with rfl | hm
        · exact hp hq
        · exact h q hq hm

mutual
/-- The admissible expressions are those without faults. -/
theorem faults_eq_nil_iff {policy : FreeNames} {scope : List String} (e : Expr) :
    e.faults policy scope = [] ↔ e.Admissible policy scope := by
  match e with
  | .name x =>
    by_cases hx : x ∈ scope
    · simp [faults, Admissible, hx]
    · cases policy <;> simp [faults, freeFaults, Admissible, hx]
  | .int n => simp [faults, Admissible]
  | .lam params body =>
    simp only [faults, Admissible, List.append_eq_nil_iff, List.map_eq_nil_iff, repeats_eq_nil_iff,
      faults_eq_nil_iff body]
    simp
  | .call callee args =>
    simp only [faults, Admissible, List.append_eq_nil_iff, faults_eq_nil_iff callee,
      faultsAll_eq_nil_iff args]
    simp
theorem faultsAll_eq_nil_iff {policy : FreeNames} {scope : List String} (as : List Expr) :
    faultsAll policy scope as = [] ↔ AdmissibleAll policy scope as := by
  match as with
  | [] => simp [faultsAll, AdmissibleAll]
  | a :: as =>
    simp only [faultsAll, AdmissibleAll, List.append_eq_nil_iff, faults_eq_nil_iff a,
      faultsAll_eq_nil_iff as]
end

end Expr

end Curried
