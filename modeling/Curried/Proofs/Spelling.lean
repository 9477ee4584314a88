import Curried.Proofs.WellFormed

namespace Curried

namespace Expr

mutual
def params : Expr → List String
  | .name _ | .int _ => []
  | .lam params body => params ++ body.params
  | .call callee args => callee.params ++ paramsAll args
def paramsAll : List Expr → List String
  | [] => []
  | a :: as => a.params ++ paramsAll as
end

mutual
def ints : Expr → List Int64
  | .name _ => []
  | .int n => [n]
  | .lam _ body => body.ints
  | .call callee args => callee.ints ++ intsAll args
def intsAll : List Expr → List Int64
  | [] => []
  | a :: as => a.ints ++ intsAll as
end

end Expr

namespace Term

theorem params_spell (t : Term) : t.spell.params = t.binders.map Ident.name := by
  induction t with
  | var x => rfl
  | free name => rfl
  | abs x body ih => simp [spell, Expr.params, binders, ih]
  | app callee argument ihf iha => simp [spell, Expr.params, Expr.paramsAll, binders, ihf, iha]

theorem ints_spell (t : Term) : t.spell.ints = [] := by
  induction t with
  | var x => rfl
  | free name => rfl
  | abs x body ih => exact ih
  | app callee argument ihf iha => simp [spell, Expr.ints, Expr.intsAll, ihf, iha]

/-- A bound variable and a free name are not spelled alike: the binder of the one would capture the
other. -/
theorem name_ne_of_readable {bound : List Ident} {x : Ident} {name : String}
    (hv : (var x).Readable bound) (hf : (free name).Readable bound) : x.name ≠ name := by
  rintro rfl
  exact hf.2 x (Ident.ofName?_name x) hv

/-- Readable terms with the same spelling are the same. -/
theorem eq_of_spell_eq {bound : List Ident} {s t : Term} (hs : s.Readable bound)
    (ht : t.Readable bound) (h : s.spell = t.spell) : s = t := by
  induction s generalizing bound t with
  | var x =>
    cases t with
    | var y => rw [Ident.name_injective (Expr.name.inj h)]
    | free name => exact absurd (Expr.name.inj h) (name_ne_of_readable hs ht)
    | abs y body => cases h
    | app callee argument => cases h
  | free name =>
    cases t with
    | var y => exact absurd (Expr.name.inj h).symm (name_ne_of_readable ht hs)
    | free name' => rw [Expr.name.inj h]
    | abs y body => cases h
    | app callee argument => cases h
  | abs x body ih =>
    cases t with
    | var y => cases h
    | free name => cases h
    | abs y body' =>
      obtain ⟨hp, hb⟩ := Expr.lam.inj h
      obtain rfl := Ident.name_injective (List.cons.inj hp).1
      have hs' : body.Readable (x :: bound) := hs
      have ht' : body'.Readable (x :: bound) := ht
      rw [ih hs' ht' hb]
    | app callee argument => cases h
  | app callee argument ihf iha =>
    cases t with
    | var y => cases h
    | free name => cases h
    | abs y body => cases h
    | app callee' argument' =>
      obtain ⟨hf, ha⟩ := Expr.call.inj h
      rw [ihf hs.1 ht.1 hf, iha hs.2 ht.2 (List.cons.inj ha).1]

/-- A curried expression without integers whose parameters are names of identifiers is the spelling
of a term. -/
theorem exists_eq_spell (bound : List Ident) (e : Expr) (hc : e.isCurried = true)
    (hi : e.ints = []) (hp : ∀ p ∈ e.params, (Ident.ofName? p).isSome)
    (hf : ∀ x ∈ e.freeOccurrences (bound.map Ident.name), isIdentifier x = true) :
    ∃ t : Term, t.Readable bound ∧ e = t.spell := by
  match e with
  | .name x =>
    by_cases hx : x ∈ bound.map Ident.name
    · obtain ⟨y, hy, rfl⟩ := List.mem_map.mp hx
      exact ⟨.var y, hy, rfl⟩
    · refine ⟨.free x, ⟨hf x ?_, ?_⟩, rfl⟩
      · simp [Expr.freeOccurrences, hx]
      · intro y hy hm
        exact hx (Ident.name_of_ofName? hy ▸ List.mem_map_of_mem hm)
  | .int n => cases hi
  | .lam params body =>
    simp only [Expr.isCurried, Bool.and_eq_true, beq_iff_eq] at hc
    obtain ⟨p, rfl⟩ := List.length_eq_one_iff.mp hc.1
    rw [Expr.params, List.forall_mem_append, List.forall_mem_singleton] at hp
    obtain ⟨y, hy⟩ := Option.isSome_iff_exists.mp hp.1
    obtain rfl := Ident.name_of_ofName? hy
    obtain ⟨t, ht, rfl⟩ := exists_eq_spell (y :: bound) body hc.2 hi hp.2 hf
    exact ⟨.abs y t, ht, rfl⟩
  | .call callee args =>
    simp only [Expr.isCurried, Bool.and_eq_true, beq_iff_eq] at hc
    obtain ⟨⟨hl, hcf⟩, hca⟩ := hc
    obtain ⟨a, rfl⟩ := List.length_eq_one_iff.mp hl
    simp only [Expr.areCurried, Bool.and_true] at hca
    simp only [Expr.ints, Expr.intsAll, List.append_nil, List.append_eq_nil_iff] at hi
    simp only [Expr.params, Expr.paramsAll, List.append_nil, List.forall_mem_append] at hp
    simp only [Expr.freeOccurrences, Expr.freeOccurrencesAll, List.append_nil,
      List.forall_mem_append] at hf
    obtain ⟨f, hfr, rfl⟩ := exists_eq_spell bound callee hcf hi.1 hp.1 hf.1
    obtain ⟨t, htr, rfl⟩ := exists_eq_spell bound a hca hi.2 hp.2 hf.2
    exact ⟨.app f t, ⟨hfr, htr⟩, rfl⟩

end Term

/-- No two terms are read back as the same expression. The expressions that are read back from some
term are curried, hold no integers, have parameters that are distinct names of identifiers, and free
names that are identifiers of the notation. -/
theorem toExpr_bijective_onto_image :
    (∀ {s t : Term} {e : Expr}, s.toExpr = .ok e → t.toExpr = .ok e → s = t) ∧
      ∀ e : Expr, (∃ t : Term, t.toExpr = .ok e) ↔
        e.isCurried = true ∧ e.ints = [] ∧ (∀ p ∈ e.params, (Ident.ofName? p).isSome) ∧
          e.params.Nodup ∧ ∀ x ∈ e.freeOccurrences [], isIdentifier x = true := by
  simp only [Term.toExpr_eq_ok_iff]
  refine ⟨?_, fun e => ⟨?_, ?_⟩⟩
  · rintro s t e ⟨hs, -, rfl⟩ ⟨ht, -, h⟩
    exact Term.eq_of_spell_eq hs ht h
  · rintro ⟨t, hr, hn, rfl⟩
    have hfree : t.spell.freeOccurrences [] = t.freeOccurrences := Term.freeOccurrences_spell hr
    rw [Term.params_spell, hfree]
    refine ⟨t.isCurried_spell, t.ints_spell, ?_, hn.map Ident.name_injective,
      (Term.readable_iff.mp hr).2.1⟩
    intro p hp
    obtain ⟨x, -, rfl⟩ := List.mem_map.mp hp
    rw [Ident.ofName?_name, Option.isSome_some]
  · rintro ⟨hc, hi, hp, hn, hf⟩
    obtain ⟨t, hr, rfl⟩ := Term.exists_eq_spell [] e hc hi hp hf
    rw [Term.params_spell] at hn
    exact ⟨t, hr, hn.of_map _, rfl⟩

/-- A name that is a bound variable in the callee and free in the argument. -/
theorem toExpr_bijective_onto_image_both :
    let s : Term := .app (.abs ⟨5⟩ (.var ⟨5⟩)) (.free "x5")
    let e : Expr := .call (.lam ["x5"] (.name "x5")) [.name "x5"]
    s.toExpr = .ok e ∧ (∀ t : Term, t.toExpr = .ok e → t = s) ∧
      e.isCurried = true ∧ e.ints = [] ∧ (∀ p ∈ e.params, (Ident.ofName? p).isSome) ∧
      e.params.Nodup ∧ ∀ x ∈ e.freeOccurrences [], isIdentifier x = true := by
  intro s e
  have h : s.toExpr = .ok e := by rfl
  obtain ⟨hinj, himage⟩ := toExpr_bijective_onto_image
  exact ⟨h, fun t ht => hinj ht h, (himage e).mp ⟨s, h⟩⟩

end Curried
