import Curried.Proofs.Faults
import Mathlib.Data.List.Duplicate

namespace Curried

/-- A list in consecutive parts. None of them is empty, unless it is the whole of an empty list. -/
inductive Parts {α : Type} : List α → List (List α) → Prop
  | whole (l : List α) : Parts l [l]
  | cut {front back : List α} {parts : List (List α)} :
      front ≠ [] → back ≠ [] → Parts back parts → Parts (front ++ back) (front :: parts)

theorem Parts.flatten {α : Type} {l : List α} {parts : List (List α)} (h : Parts l parts) :
    parts.flatten = l := by
  induction h with
  | whole l => simp
  | cut _ _ _ ih => rw [List.flatten_cons, ih]

theorem Parts.ne_nil {α : Type} {l : List α} {parts : List (List α)} (h : Parts l parts) :
    (∀ p ∈ parts, p ≠ []) ↔ l ≠ [] := by
  induction h with
  | whole l => simp
  | cut hf hb _ ih => simp [hf, hb, ih]

namespace Expr

def lamGroups (groups : List (List String)) (body : Expr) : Expr := groups.foldr .lam body

def callGroups (callee : Expr) (groups : List (List Expr)) : Expr := groups.foldl .call callee

theorem lamGroups_cons (g : List String) (groups : List (List String)) (body : Expr) :
    lamGroups (g :: groups) body = .lam g (lamGroups groups body) := rfl

theorem callGroups_cons (callee : Expr) (g : List Expr) (groups : List (List Expr)) :
    callGroups callee (g :: groups) = callGroups (.call callee g) groups := rfl

mutual
/-- The second expression is the first one with lists of parameters cut into those of nested
functions, and lists of arguments into those of nested calls, at any places. -/
inductive Regrouped : Expr → Expr → Prop
  | name (x : String) : Regrouped (.name x) (.name x)
  | int (n : Int64) : Regrouped (.int n) (.int n)
  | lam {params : List String} {groups : List (List String)} {body body' : Expr} :
      Parts params groups → Regrouped body body' →
      Regrouped (.lam params body) (lamGroups groups body')
  | call {callee callee' : Expr} {args args' : List Expr} {groups : List (List Expr)} :
      Regrouped callee callee' → RegroupedAll args args' → Parts args' groups →
      Regrouped (.call callee args) (callGroups callee' groups)
inductive RegroupedAll : List Expr → List Expr → Prop
  | nil : RegroupedAll [] []
  | cons {a a' : Expr} {as as' : List Expr} :
      Regrouped a a' → RegroupedAll as as' → RegroupedAll (a :: as) (a' :: as')
end

theorem RegroupedAll.eq_nil_iff {as as' : List Expr} (h : RegroupedAll as as') :
    as' = [] ↔ as = [] := by
  cases h with
  | nil => exact Iff.rfl
  | cons _ _ => simp

theorem nameless?_lamGroups (σ : List String) (groups : List (List String)) (body : Expr) :
    (lamGroups groups body).nameless? σ = (Expr.lam groups.flatten body).nameless? σ := by
  induction groups generalizing σ with
  | nil =>
    rw [List.flatten_nil, nameless?, List.reverse_nil, List.nil_append, List.length_nil]
    exact Option.map_id'.symm
  | cons g groups ih =>
    have hcomp : Nameless.absMany (g ++ groups.flatten).length =
        Nameless.absMany g.length ∘ Nameless.absMany groups.flatten.length := by
      funext b
      rw [List.length_append, Nameless.absMany_add, Function.comp_apply]
    calc (lamGroups (g :: groups) body).nameless? σ
        = ((lamGroups groups body).nameless? (g.reverse ++ σ)).map (Nameless.absMany g.length) := by
          rw [lamGroups_cons, nameless?]
      _ = (body.nameless? ((g ++ groups.flatten).reverse ++ σ)).map
            (Nameless.absMany (g ++ groups.flatten).length) := by
          rw [ih, nameless?, Option.map_map, hcomp, List.reverse_append, List.append_assoc]
      _ = (Expr.lam (g :: groups).flatten body).nameless? σ := by
          rw [nameless?, List.flatten_cons]

theorem namelessArgs?_append (σ : List String) (f : Nameless) (as bs : List Expr) :
    namelessArgs? σ f (as ++ bs) = (namelessArgs? σ f as).bind (namelessArgs? σ · bs) := by
  induction as generalizing f with
  | nil => rw [List.nil_append, namelessArgs?, Option.bind_some]
  | cons a as ih =>
    simp only [List.cons_append, namelessArgs?, ih, Option.bind_eq_bind, Option.bind_assoc]

theorem nameless?_callGroups (σ : List String) (callee : Expr) (groups : List (List Expr)) :
    (callGroups callee groups).nameless? σ = (Expr.call callee groups.flatten).nameless? σ := by
  induction groups generalizing callee with
  | nil => simp [callGroups, nameless?, namelessArgs?]
  | cons g groups ih =>
    rw [callGroups_cons, ih, List.flatten_cons]
    simp only [nameless?, namelessArgs?_append, Option.bind_eq_bind, Option.bind_assoc]

mutual
/-- Regrouping keeps the nameless form, which is curried in any case. -/
theorem Regrouped.nameless? {e e' : Expr} (h : Regrouped e e') (σ : List String) :
    e'.nameless? σ = e.nameless? σ := by
  match h with
  | .name x | .int n => rfl
  | .lam hp hb =>
    rw [nameless?_lamGroups, hp.flatten, Expr.nameless?, Expr.nameless?, hb.nameless?]
  | .call hf has hp =>
    rw [nameless?_callGroups, hp.flatten, Expr.nameless?, Expr.nameless?, hf.nameless?]
    simp only [has.namelessArgs?]
theorem RegroupedAll.namelessArgs? {as as' : List Expr} (h : RegroupedAll as as') (σ : List String)
    (f : Nameless) : Expr.namelessArgs? σ f as' = Expr.namelessArgs? σ f as := by
  match h with
  | .nil => rfl
  | .cons ha has =>
    rw [Expr.namelessArgs?, Expr.namelessArgs?, ha.nameless?]
    simp only [has.namelessArgs?]
end

theorem admissible_lamGroups {policy : FreeNames} {σ : List String} {groups : List (List String)}
    {body : Expr} :
    (lamGroups groups body).Admissible policy σ ↔
      (∀ g ∈ groups, g ≠ [] ∧ g.Nodup) ∧ body.Admissible policy (groups.flatten.reverse ++ σ) := by
  induction groups generalizing σ with
  | nil => simp [lamGroups]
  | cons g groups ih =>
    rw [lamGroups_cons, Admissible, ih, List.forall_mem_cons, List.flatten_cons,
      List.reverse_append,
      List.append_assoc]
    tauto

theorem admissibleAll_append {policy : FreeNames} {σ : List String} {as bs : List Expr} :
    AdmissibleAll policy σ (as ++ bs) ↔ AdmissibleAll policy σ as ∧ AdmissibleAll policy σ bs := by
  induction as with
  | nil => simp [AdmissibleAll]
  | cons a as ih => rw [List.cons_append, AdmissibleAll, ih, AdmissibleAll, and_assoc]

theorem admissible_callGroups {policy : FreeNames} {σ : List String} {callee : Expr}
    {groups : List (List Expr)} :
    (callGroups callee groups).Admissible policy σ ↔
      (∀ g ∈ groups, g ≠ []) ∧ callee.Admissible policy σ ∧
        AdmissibleAll policy σ groups.flatten := by
  induction groups generalizing callee with
  | nil => simp [callGroups, AdmissibleAll]
  | cons g groups ih =>
    rw [callGroups_cons, ih, Admissible, List.forall_mem_cons, List.flatten_cons,
      admissibleAll_append]
    tauto

mutual
/-- Regrouping an admissible expression gives one again. -/
theorem Regrouped.admissible {policy : FreeNames} {e e' : Expr} (h : Regrouped e e')
    {σ : List String} (ha : e.Admissible policy σ) : e'.Admissible policy σ := by
  match h with
  | .name x | .int n => exact ha
  | .lam hp hb =>
    obtain ⟨hne, hnd, hbody⟩ := ha
    rw [admissible_lamGroups, hp.flatten]
    refine ⟨fun g hg => ⟨hp.ne_nil.mpr hne g hg, ?_⟩, hb.admissible hbody⟩
    rw [← hp.flatten] at hnd
    exact hnd.sublist (List.sublist_flatten_of_mem hg)
  | .call hf has hp =>
    obtain ⟨hne, hc, hargs⟩ := ha
    rw [admissible_callGroups, hp.flatten]
    exact ⟨hp.ne_nil.mpr (has.eq_nil_iff.not.mpr hne), hf.admissible hc, has.admissible hargs⟩
theorem RegroupedAll.admissible {policy : FreeNames} {as as' : List Expr}
    (h : RegroupedAll as as') {σ : List String} (ha : AdmissibleAll policy σ as) :
    AdmissibleAll policy σ as' := by
  match h with
  | .nil => exact ha
  | .cons h has => exact ⟨h.admissible ha.1, has.admissible ha.2⟩
end

mutual
def Repeats (x : String) : Expr → Prop
  | .name _ | .int _ => False
  | .lam params body => List.Duplicate x params ∨ body.Repeats x
  | .call callee args => callee.Repeats x ∨ RepeatsAny x args
def RepeatsAny (x : String) : List Expr → Prop
  | [] => False
  | a :: as => a.Repeats x ∨ RepeatsAny x as
end

theorem duplicate_of_mem_repeats {earlier ps : List String} {x : String}
    (h : x ∈ repeats earlier ps) : x ∈ earlier ∧ x ∈ ps ∨ List.Duplicate x ps := by
  induction ps generalizing earlier with
  | nil => cases h
  | cons p ps ih =>
    have hrest (hx : x ∈ repeats (p :: earlier) ps) :
        x ∈ earlier ∧ x ∈ p :: ps ∨ List.Duplicate x (p :: ps) := by
      rcases ih hx with ⟨he, hm⟩ | hd
      · rcases List.mem_cons.mp he with rfl | he
        · exact .inr (List.Duplicate.cons_mem hm)
        · exact .inl ⟨he, List.mem_cons_of_mem p hm⟩
      · exact .inr (hd.duplicate_cons p)
    rw [repeats] at h
    split at h
    · next hp =>
      rcases List.mem_cons.mp h with rfl | hx
      · exact .inl ⟨hp, List.mem_cons_self⟩
      · exact hrest hx
    · exact hrest h

mutual
/-- When an expression is regrouped to an admissible one, its own faults are repeated parameters. -/
theorem Regrouped.faults {policy : FreeNames} {e e' : Expr} (h : Regrouped e e')
    {σ : List String} (ha : e'.Admissible policy σ) {err : CanonicalError}
    (he : err ∈ e.faults policy σ) :
    ∃ x, e.Repeats x ∧ err = .unsupported (.repeatedParameter x) := by
  match h with
  | .name x | .int n =>
    rw [(faults_eq_nil_iff _).mpr ha] at he
    cases he
  | @Regrouped.lam params _ body _ hp hb =>
    rw [admissible_lamGroups, hp.flatten] at ha
    have hne : params.isEmpty = false := by
      simpa using hp.ne_nil.mp fun g hg => (ha.1 g hg).1
    simp only [Expr.faults, hne, Bool.false_eq_true, ↓reduceIte, List.nil_append,
      List.mem_append, List.mem_map] at he
    rcases he with ⟨x, hx, rfl⟩ | he
    · rcases duplicate_of_mem_repeats hx with ⟨hm, -⟩ | hd
      · cases hm
      · exact ⟨x, .inl hd, rfl⟩
    · obtain ⟨x, hx, rfl⟩ := hb.faults ha.2 he
      exact ⟨x, .inr hx, rfl⟩
  | @Regrouped.call callee _ args _ _ hf has hp =>
    rw [admissible_callGroups, hp.flatten] at ha
    have hne : args.isEmpty = false := by
      simpa using has.eq_nil_iff.not.mp (hp.ne_nil.mp ha.1)
    simp only [Expr.faults, hne, Bool.false_eq_true, ↓reduceIte, List.nil_append,
      List.mem_append] at he
    rcases he with he | he
    · obtain ⟨x, hx, rfl⟩ := hf.faults ha.2.1 he
      exact ⟨x, .inl hx, rfl⟩
    · obtain ⟨x, hx, rfl⟩ := has.faults ha.2.2 he
      exact ⟨x, .inr hx, rfl⟩
theorem RegroupedAll.faults {policy : FreeNames} {as as' : List Expr} (h : RegroupedAll as as')
    {σ : List String} (ha : AdmissibleAll policy σ as') {err : CanonicalError}
    (he : err ∈ faultsAll policy σ as) :
    ∃ x, RepeatsAny x as ∧ err = .unsupported (.repeatedParameter x) := by
  match h with
  | .nil => cases he
  | .cons h has =>
    rw [faultsAll] at he
    rcases List.mem_append.mp he with he | he
    · obtain ⟨x, hx, rfl⟩ := h.faults ha.1 he
      exact ⟨x, .inl hx, rfl⟩
    · obtain ⟨x, hx, rfl⟩ := has.faults ha.2 he
      exact ⟨x, .inr hx, rfl⟩
end

end Expr

/-- An expression that has a canonical term has the same one however its parameters and arguments
are regrouped. If a regrouped expression has a canonical term, the expression itself has it too, or
one of its functions repeats a parameter and this is why it has none. -/
theorem canonical_of_regrouped {policy : FreeNames} {e e' : Expr} (h : Expr.Regrouped e e')
    (c : Canonical) :
    (Canonical.ofExpr policy e = .ok c → Canonical.ofExpr policy e' = .ok c) ∧
      (Canonical.ofExpr policy e' = .ok c → Canonical.ofExpr policy e = .ok c ∨
        ∃ x, e.Repeats x ∧
          Canonical.ofExpr policy e = .error (.unsupported (.repeatedParameter x))) := by
  have hsame {m : Nameless} (hm : e.nameless? [] = some m) (hm' : e'.nameless? [] = some m) :
      e'.paramCount = e.paramCount := by
    rw [← (Expr.kept_of_nameless? hm').absCount, (Expr.kept_of_nameless? hm).absCount]
  constructor
  · intro hc
    obtain ⟨hadm, m, hm, rfl⟩ := Canonical.ofExpr_eq_ok_iff.mp hc
    have hm' : e'.nameless? [] = some m := (h.nameless? []).trans hm
    rw [← hsame hm hm']
    exact Canonical.ofExpr_eq_ok_iff.mpr ⟨h.admissible hadm, m, hm', rfl⟩
  · intro hc
    obtain ⟨hadm, m, hm', rfl⟩ := Canonical.ofExpr_eq_ok_iff.mp hc
    have hm : e.nameless? [] = some m := (h.nameless? []).symm.trans hm'
    rw [hsame hm hm']
    cases hf : e.faults policy [] with
    | nil =>
      have hadm₀ := (Expr.faults_eq_nil_iff e).mp hf
      exact .inl (Canonical.ofExpr_eq_ok_iff.mpr ⟨hadm₀, m, hm, rfl⟩)
    | cons err rest =>
      have hfirst : err ∈ e.faults policy [] := hf ▸ List.mem_cons_self
      obtain ⟨x, hx, rfl⟩ := h.faults hadm hfirst
      exact .inr ⟨x, hx, Canonical.ofExpr_eq_error.mpr (by rw [hf]; rfl)⟩

/-- A list of three parameters, with one of them repeated, in two groups, and a call with two
arguments as two calls. -/
theorem canonical_of_regrouped_repeated :
    let e : Expr := .lam ["f", "x", "f"] (.call (.name "f") [.name "x", .lam ["y"] (.name "y")])
    let e' : Expr := .lam ["f"] (.lam ["x", "f"]
      (.call (.call (.name "f") [.name "x"]) [.lam ["y"] (.name "y")]))
    let c : Canonical := ⟨.abs ⟨0⟩ (.abs ⟨1⟩ (.abs ⟨2⟩
      (.app (.app (.var ⟨2⟩) (.var ⟨1⟩)) (.abs ⟨3⟩ (.var ⟨3⟩))))), 4⟩
    Expr.Regrouped e e' ∧ Canonical.ofExpr .reject e' = .ok c ∧
      (Canonical.ofExpr .reject e = .ok c ∨ ∃ x, e.Repeats x ∧
        Canonical.ofExpr .reject e = .error (.unsupported (.repeatedParameter x))) := by
  intro e e' c
  have hps : Parts ["f", "x", "f"] [["f"], ["x", "f"]] :=
    .cut (List.cons_ne_nil "f" []) (List.cons_ne_nil "x" ["f"]) (.whole _)
  have has : Parts [Expr.name "x", .lam ["y"] (.name "y")]
      [[.name "x"], [.lam ["y"] (.name "y")]] :=
    .cut (List.cons_ne_nil (Expr.name "x") [])
      (List.cons_ne_nil (Expr.lam ["y"] (.name "y")) []) (.whole _)
  have h : Expr.Regrouped e e' :=
    .lam hps (.call (.name "f") (.cons (.name "x") (.cons (.lam (.whole _) (.name "y")) .nil)) has)
  have hc : Canonical.ofExpr .reject e' = .ok c := by rfl
  exact ⟨h, hc, (canonical_of_regrouped h c).2 hc⟩

end Curried
