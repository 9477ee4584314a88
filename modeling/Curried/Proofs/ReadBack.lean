import Curried.Interpreter
import Curried.Proofs.Naming
import Curried.Proofs.Print
import Mathlib.Data.List.Nodup
import Mathlib.Data.List.Perm.Subperm

namespace Curried

/-- A node of a term with the binders around it, innermost first, and the binders before it in
preorder, latest first. -/
structure Node where
  term : Term
  around : List Ident
  before : List Ident

def Node.violation? (n : Node) : Option Violation :=
  match n.term with
  | .var x => if x ∈ n.around then none else some (.dangling x)
  | .free name =>
    if name = "" then some .emptyName
    else if isIdentifier name = false then some (.notIdentifier name)
    else if ∃ x ∈ n.around, x.name = name then some (.captured name)
    else none
  | .abs x _ => if x ∈ n.before then some (.rebound x) else none
  | .app _ _ => none

namespace Term

def nodes (around before : List Ident) : Term → List Node
  | var x => [⟨var x, around, before⟩]
  | free name => [⟨free name, around, before⟩]
  | abs x body => ⟨abs x body, around, before⟩ :: body.nodes (x :: around) (x :: before)
  | app callee argument =>
    ⟨app callee argument, around, before⟩ ::
      (callee.nodes around before ++ argument.nodes around (callee.binders.reverse ++ before))

def firstViolation? (around before : List Ident) (t : Term) : Option Violation :=
  (t.nodes around before).findSome? Node.violation?

def spell : Term → Expr
  | var x => .name x.name
  | free name => .name name
  | abs x body => .lam [x.name] body.spell
  | app callee argument => .call callee.spell [argument.spell]

/-- Under binders `bound`, every variable lies under its own binder, and every free name is an
identifier that none of the binders around it captures. -/
def Readable (bound : List Ident) : Term → Prop
  | var x => x ∈ bound
  | free name => isIdentifier name = true ∧ ∀ x, Ident.ofName? name = some x → x ∉ bound
  | abs x body => body.Readable (x :: bound)
  | app callee argument => callee.Readable bound ∧ argument.Readable bound

theorem firstViolation?_abs (bound seen : List Ident) (x : Ident) (body : Term) :
    (abs x body).firstViolation? bound seen =
      if x ∈ seen then some (.rebound x) else body.firstViolation? (x :: bound) (x :: seen) := by
  by_cases h : x ∈ seen <;> simp [firstViolation?, nodes, Node.violation?, h]

theorem firstViolation?_app (bound seen : List Ident) (callee argument : Term) :
    (app callee argument).firstViolation? bound seen =
      (callee.firstViolation? bound seen).or
        (argument.firstViolation? bound (callee.binders.reverse ++ seen)) := by
  have hroot : (Node.mk (app callee argument) bound seen).violation? = none := rfl
  simp only [firstViolation?, nodes, List.findSome?_cons, hroot, List.findSome?_append]

/-- Reading back spells the term, unless some node is at fault. -/
theorem readBack_eq (bound seen : List Ident) (t : Term) :
    t.readBack bound seen =
      (t.firstViolation? bound seen).elim (.ok (t.spell, t.binders.reverse ++ seen)) .error := by
  induction t generalizing bound seen with
  | var x =>
    by_cases h : x ∈ bound <;>
      simp [readBack, firstViolation?, nodes, Node.violation?, spell, binders, h]
  | free name =>
    simp only [readBack, firstViolation?, nodes, Ident.any_ofName?_iff, List.findSome?_singleton]
    by_cases he : name = ""
    · simp [Node.violation?, he]
    by_cases hi : isIdentifier name = true
    · by_cases hc : ∃ x ∈ bound, x.name = name <;>
        simp [Node.violation?, he, hi, hc, spell, binders]
    · simp [Node.violation?, he, hi]
  | abs x body ih =>
    rw [readBack, firstViolation?_abs, ih]
    by_cases h : x ∈ seen
    · simp [h]
    · rw [if_neg h, if_neg h]
      cases body.firstViolation? (x :: bound) (x :: seen) with
      | some v => rfl
      | none => simp [spell, binders, pure, Except.pure]
  | app callee argument ihf iha =>
    rw [readBack, firstViolation?_app, ihf]
    cases callee.firstViolation? bound seen with
    | some v => rfl
    | none =>
      simp only [Option.elim_none, ok_bind, iha, Option.none_or]
      cases argument.firstViolation? bound (callee.binders.reverse ++ seen) with
      | some v => rfl
      | none => simp [spell, binders, pure, Except.pure]

/-- No node is at fault in a readable term with distinct binders, and in no other. -/
theorem firstViolation?_eq_none_iff {bound seen : List Ident} (hs : seen.Nodup) {t : Term} :
    t.firstViolation? bound seen = none ↔
      t.Readable bound ∧ (t.binders.reverse ++ seen).Nodup := by
  induction t generalizing bound seen with
  | var x => simp [firstViolation?, nodes, Node.violation?, Readable, binders, hs]
  | free name =>
    simp only [firstViolation?, nodes, List.findSome?_singleton, Node.violation?, Readable,
      ← Ident.forall_name_ne_iff, binders]
    by_cases he : name = ""
    · have hi : isIdentifier "" = false := by decide
      simp [he, hi]
    by_cases hi : isIdentifier name = true
    · by_cases hc : ∃ x ∈ bound, x.name = name
      · have hsome : ¬ ∀ x ∈ bound, ¬ x.name = name := by
          intro h
          obtain ⟨x, hx, hn⟩ := hc
          exact h x hx hn
        simp [he, hi, hc, hsome]
      · have hne : ∀ x ∈ bound, x.name ≠ name := fun x hx hn => hc ⟨x, hx, hn⟩
        simpa [he, hi, hc, hs] using hne
    · simp [he, hi]
  | abs x body ih =>
    rw [firstViolation?_abs, binders, List.reverse_cons, List.append_assoc, List.singleton_append]
    by_cases h : x ∈ seen
    · -- A binder that is met again stands twice in the list.
      have hn : ¬ (body.binders.reverse ++ x :: seen).Nodup := by
        intro hn
        exact (List.nodup_cons.mp (List.nodup_append.mp hn).2.1).1 h
      simp [h, hn]
    · rw [if_neg h]
      exact ih (List.nodup_cons.mpr ⟨h, hs⟩)
  | app callee argument ihf iha =>
    rw [firstViolation?_app, Option.or_eq_none_iff, ihf hs, binders, List.reverse_append,
      List.append_assoc, Readable]
    constructor
    · -- What the callee leaves as seen is still distinct, so the argument can go on from there.
      rintro ⟨⟨hf, hn⟩, h⟩
      obtain ⟨ha, hn'⟩ := (iha hn).mp h
      exact ⟨⟨hf, ha⟩, hn'⟩
    · rintro ⟨⟨hf, ha⟩, hn'⟩
      have hn := (List.nodup_append.mp hn').2.1
      exact ⟨⟨hf, hn⟩, (iha hn).mpr ⟨ha, hn'⟩⟩

theorem toExpr_eq (t : Term) :
    t.toExpr = (t.firstViolation? [] []).elim (.ok t.spell) fun v => .error (.illFormed v) := by
  rw [toExpr, readBack_eq]
  cases t.firstViolation? [] [] <;> rfl

/-- The terms that are read back, and the expression that each of them is read back as. -/
theorem toExpr_eq_ok_iff {t : Term} {e : Expr} :
    t.toExpr = .ok e ↔ t.Readable [] ∧ t.binders.Nodup ∧ e = t.spell := by
  have hv : t.firstViolation? [] [] = none ↔ t.Readable [] ∧ t.binders.Nodup := by
    rw [firstViolation?_eq_none_iff List.nodup_nil, List.append_nil, List.nodup_reverse]
  rw [toExpr_eq, ← and_assoc, ← hv]
  cases t.firstViolation? [] [] <;> simp [eq_comm]

theorem isCurried_spell (t : Term) : t.spell.isCurried = true := by
  induction t with
  | var x => rfl
  | free name => rfl
  | abs x body ih => simp [spell, Expr.isCurried, ih]
  | app callee argument ihf iha => simp [spell, Expr.isCurried, Expr.areCurried, ihf, iha]

theorem paramCount_spell (t : Term) : t.spell.paramCount = t.binders.length := by
  induction t with
  | var x => rfl
  | free name => rfl
  | abs x body ih => simp [spell, Expr.paramCount, binders, ih, Nat.add_comm]
  | app callee argument ihf iha =>
    simp [spell, Expr.paramCount, Expr.paramCounts, binders, ihf, iha]

theorem names_spell {t : Term} (h : ∀ x ∈ t.freeOccurrences, isIdentifier x = true) :
    ∀ x ∈ t.spell.names, isIdentifier x = true := by
  induction t with
  | var x => simp [spell, Expr.names]
  | free name => simpa [spell, Expr.names, freeOccurrences] using h
  | abs x body ih =>
    intro y hy
    simp only [spell, Expr.names, List.mem_append, List.mem_singleton] at hy
    rcases hy with rfl | hy
    · exact Ident.isIdentifier_name x
    · exact ih h y hy
  | app callee argument ihf iha =>
    simp only [freeOccurrences, List.mem_append] at h
    intro y hy
    simp only [spell, Expr.names, Expr.namesAll, List.append_nil, List.mem_append] at hy
    rcases hy with hy | hy
    · exact ihf (fun x hx => h x (.inl hx)) y hy
    · exact iha (fun x hx => h x (.inr hx)) y hy

theorem idxOf?_map_name (bound : List Ident) (x : Ident) :
    (bound.map Ident.name).idxOf? x.name = bound.idxOf? x := by
  induction bound with
  | nil => rfl
  | cons y bound ih => simp [List.idxOf?_cons, ih]

/-- Spelling keeps the nameless form: identifiers have distinct names, and a free name is none of
them. -/
theorem nameless?_spell {bound : List Ident} {t : Term} (hr : t.Readable bound)
    (hf : ∀ x ∈ t.freeOccurrences, Ident.ofName? x = none) :
    t.spell.nameless? (bound.map Ident.name) = t.nameless? bound := by
  induction t generalizing bound with
  | var x =>
    obtain ⟨i, hi⟩ := Option.isSome_iff_exists.mp (List.isSome_idxOf?.mpr hr)
    simp [spell, Expr.nameless?, Term.nameless?, idxOf?_map_name, hi]
  | free name =>
    have hn : Ident.ofName? name = none := hf name (by simp [freeOccurrences])
    have hi : (bound.map Ident.name).idxOf? name = none := by
      simp only [List.idxOf?_eq_none_iff, List.mem_map, not_exists, not_and]
      exact fun x _ => Ident.name_ne_of_ofName?_eq_none hn x
    simp [spell, Expr.nameless?, Term.nameless?, hi]
  | abs x body ih =>
    have hr' : body.Readable (x :: bound) := hr
    have hi := ih hr' hf
    simp only [List.map_cons] at hi
    simp only [spell, Expr.nameless?, Term.nameless?, List.reverse_singleton, List.singleton_append,
      hi]
    rfl
  | app callee argument ihf iha =>
    simp only [freeOccurrences, List.mem_append] at hf
    have hc := ihf hr.1 fun x hx => hf x (.inl hx)
    have ha := iha hr.2 fun x hx => hf x (.inr hx)
    simp only [spell, Expr.nameless?, Expr.namelessArgs?, Term.nameless?, hc, ha]
    rfl

/-- Spelling keeps the free names: none of them is the name of a binder around it. -/
theorem freeOccurrences_spell {bound : List Ident} {t : Term} (hr : t.Readable bound) :
    t.spell.freeOccurrences (bound.map Ident.name) = t.freeOccurrences := by
  induction t generalizing bound with
  | var x =>
    have hx : x.name ∈ bound.map Ident.name := List.mem_map_of_mem hr
    simp only [spell, Expr.freeOccurrences, hx, ↓reduceIte, freeOccurrences]
  | free name =>
    have hn : name ∉ bound.map Ident.name := by
      intro hm
      obtain ⟨x, hx, rfl⟩ := List.mem_map.mp hm
      exact hr.2 x (Ident.ofName?_name x) hx
    simp only [spell, Expr.freeOccurrences, hn, ↓reduceIte, freeOccurrences]
  | abs x body ih =>
    have hr' : body.Readable (x :: bound) := hr
    exact ih hr'
  | app callee argument ihf iha =>
    simp only [spell, Expr.freeOccurrences, Expr.freeOccurrencesAll, List.append_nil,
      freeOccurrences, ihf hr.1, iha hr.2]

theorem admissible_spell {bound : List Ident} {t : Term} (hr : t.Readable bound)
    (hf : ∀ x ∈ t.freeOccurrences, Ident.ofName? x = none) :
    t.spell.Admissible .keep (bound.map Ident.name) := by
  induction t generalizing bound with
  | var x => exact .inl (List.mem_map_of_mem hr)
  | free name => exact .inr ⟨rfl, hf name (by simp [freeOccurrences])⟩
  | abs x body ih =>
    have hr' : body.Readable (x :: bound) := hr
    exact ⟨by simp, by simp, ih hr' hf⟩
  | app callee argument ihf iha =>
    simp only [freeOccurrences, List.mem_append] at hf
    exact ⟨by simp, ihf hr.1 fun x hx => hf x (.inl hx), iha hr.2 fun x hx => hf x (.inr hx),
      trivial⟩

end Term

theorem Nameless.readable_number {bound : List Ident} {m : Nameless} (hb : m.Below bound.length)
    (hf : ∀ x ∈ m.freeOccurrences, isIdentifier x = true ∧ Ident.ofName? x = none) (k : Nat) :
    (m.number bound k).Readable bound := by
  induction m generalizing bound k with
  | bound i =>
    have hi : i < bound.length := hb
    have hg : bound.getD i default = bound[i] := by simp [hi]
    simp only [number, Term.Readable, hg]
    exact List.getElem_mem hi
  | free name =>
    obtain ⟨hi, hn⟩ := hf name (by simp [freeOccurrences])
    exact ⟨hi, fun x hx => by rw [hn] at hx; cases hx⟩
  | abs body ih =>
    have hb' : body.Below (Ident.nth k :: bound).length := hb
    exact ih hb' hf (k + 1)
  | app callee argument ihf iha =>
    simp only [freeOccurrences, List.mem_append] at hf
    exact ⟨ihf hb.1 (fun x hx => hf x (.inl hx)) k, iha hb.2 (fun x hx => hf x (.inr hx)) _⟩

/-- There are 2^64 identifiers. -/
theorem Ident.length_le_of_nodup {xs : List Ident} (h : xs.Nodup) : xs.length ≤ UInt64.size := by
  have hinj : Function.Injective fun x : Ident => x.index.toNat := by
    intro x y hxy
    rw [← nth_toNat x, ← nth_toNat y]
    exact congrArg nth hxy
  have hsub : xs.map (·.index.toNat) ⊆ List.range UInt64.size := by
    intro n hn
    obtain ⟨x, -, rfl⟩ := List.mem_map.mp hn
    exact List.mem_range.mpr x.index.toNat_lt
  have hle := ((h.map hinj).subperm hsub).length_le
  rwa [List.length_map, List.length_range] at hle

theorem nodup_map_nth {k n : Nat} (h : k + n ≤ UInt64.size) :
    ((List.range' k n).map Ident.nth).Nodup := by
  rw [List.nodup_iff_pairwise_ne, List.pairwise_map]
  apply List.Pairwise.imp_of_mem _ List.pairwise_lt_range'
  intro a b ha hb hab he
  rw [List.mem_range'_1] at ha hb
  have := Ident.nth_inj (by omega) (by omega) he
  omega

mutual
theorem Expr.mem_names_of_free {scope : List String} {e : Expr} {x : String}
    (h : x ∈ e.freeOccurrences scope) : x ∈ e.names := by
  match e with
  | .name y =>
    simp only [freeOccurrences] at h
    split at h
    · cases h
    · exact h
  | .int _ => cases h
  | .lam params body =>
    simp only [freeOccurrences] at h
    exact List.mem_append_right params (Expr.mem_names_of_free h)
  | .call callee args =>
    rw [freeOccurrences] at h
    rcases List.mem_append.mp h with h | h
    · exact List.mem_append_left _ (Expr.mem_names_of_free h)
    · exact List.mem_append_right _ (Expr.mem_namesAll_of_free h)
theorem Expr.mem_namesAll_of_free {scope : List String} {as : List Expr} {x : String}
    (h : x ∈ freeOccurrencesAll scope as) : x ∈ namesAll as := by
  match as with
  | [] => cases h
  | a :: as =>
    rw [freeOccurrencesAll] at h
    rcases List.mem_append.mp h with h | h
    · exact List.mem_append_left _ (Expr.mem_names_of_free h)
    · exact List.mem_append_right _ (Expr.mem_namesAll_of_free h)
end

namespace Canonical

variable {policy : FreeNames} {e : Expr} {c : Canonical}

/-- The free names of a canonical term are those of the expression. -/
theorem freeOccurrences_term (h : ofExpr policy e = .ok c) :
    c.term.freeOccurrences = e.freeOccurrences [] := by
  obtain ⟨-, m, hm, rfl⟩ := ofExpr_eq_ok_iff.mp h
  rw [Nameless.freeOccurrences_number, (Expr.kept_of_nameless? hm).freeOccurrences]

/-- The binders of a canonical term in preorder are the identifiers in order. -/
theorem binders_term (h : ofExpr policy e = .ok c) :
    c.term.binders = (List.range' 0 e.paramCount).map .nth := by
  obtain ⟨-, m, hm, rfl⟩ := ofExpr_eq_ok_iff.mp h
  rw [Nameless.binders_number, (Expr.kept_of_nameless? hm).absCount]

theorem identifiers_eq (h : ofExpr policy e = .ok c) : c.identifiers = .ofNat e.paramCount := by
  obtain ⟨-, m, -, rfl⟩ := ofExpr_eq_ok_iff.mp h
  rfl

/-- A term that is read back has distinct binders, so no identifier was issued twice. -/
theorem paramCount_le_of_toExpr (h : ofExpr policy e = .ok c) {tree : Expr}
    (ht : c.term.toExpr = .ok tree) : e.paramCount ≤ UInt64.size := by
  have hle := Ident.length_le_of_nodup (Term.toExpr_eq_ok_iff.mp ht).2.1
  rwa [binders_term h, List.length_map, List.length_range'] at hle

theorem ofName?_of_mem_term (h : ofExpr policy e = .ok c) {x : String}
    (hx : x ∈ c.term.freeOccurrences) : policy = .keep ∧ Ident.ofName? x = none := by
  rw [freeOccurrences_term h] at hx
  exact (ofExpr_eq_ok_iff.mp h).1.free hx

theorem readable_term (h : ofExpr policy e = .ok c)
    (hi : ∀ x ∈ c.term.freeOccurrences, isIdentifier x = true) : c.term.Readable [] := by
  have hf := fun x (hx : x ∈ c.term.freeOccurrences) => (ofName?_of_mem_term h hx).2
  obtain ⟨-, m, hm, rfl⟩ := ofExpr_eq_ok_iff.mp h
  simp only [Nameless.freeOccurrences_number] at hi hf
  exact Nameless.readable_number (Expr.kept_of_nameless? hm).below
    (fun x hx => ⟨hi x hx, hf x hx⟩) 0

/-- A canonical term is read back as it is spelled. -/
theorem toExpr_term (hsize : e.paramCount ≤ UInt64.size) (h : ofExpr policy e = .ok c)
    (hi : ∀ x ∈ c.term.freeOccurrences, isIdentifier x = true) :
    c.term.toExpr = .ok c.term.spell := by
  have hn : c.term.binders.Nodup := by
    rw [binders_term h]
    exact nodup_map_nth (by omega)
  exact Term.toExpr_eq_ok_iff.mpr ⟨readable_term h hi, hn, rfl⟩

/-- The expression that a canonical term stands for has this term. -/
theorem ofExpr_spell (hsize : e.paramCount ≤ UInt64.size) (h : ofExpr policy e = .ok c)
    (hi : ∀ x ∈ c.term.freeOccurrences, isIdentifier x = true) :
    ofExpr .keep c.term.spell = .ok c := by
  have hr := readable_term h hi
  have hf := fun x (hx : x ∈ c.term.freeOccurrences) => (ofName?_of_mem_term h hx).2
  obtain ⟨m, -, hn, hcm⟩ := nameless?_term hsize h
  have hp : c.term.spell.paramCount = e.paramCount := by
    rw [Term.paramCount_spell, binders_term h, List.length_map, List.length_range']
  apply ofExpr_eq_ok_iff.mpr
  refine ⟨Term.admissible_spell hr hf, m, ?_, ?_⟩
  · exact (Term.nameless?_spell hr hf).trans hcm
  · rw [hp, ← hn, ← identifiers_eq h]

end Canonical

/-- The canonical term of a text is read back as a curried expression that is parsed from its own
text and has the same canonical term. So a text that has a term fails to run only by evaluation. It
may have parameters for all 2^64 identifiers. -/
theorem readBack_round_trip {text : String} {e : Expr} {c : Canonical} (hp : parse text = .ok e)
    (hsize : e.paramCount ≤ UInt64.size) (hc : Canonical.ofExpr .keep e = .ok c) :
    ∃ tree, c.term.toExpr = .ok tree ∧ tree.isCurried = true ∧ parse tree.render = .ok tree ∧
      Canonical.ofExpr .keep tree = .ok c ∧ c.term.recompile = .ok c ∧
      ∀ {ν : Type} [Host ν] (I : Interpreter ν),
        Program.run I text = (I.evaluate tree).mapError .eval := by
  have hi : ∀ x ∈ c.term.freeOccurrences, isIdentifier x = true := by
    intro x hx
    rw [Canonical.freeOccurrences_term hc] at hx
    exact isIdentifier_of_parse hp x (Expr.mem_names_of_free hx)
  have ht := Canonical.toExpr_term hsize hc hi
  have hs := Canonical.ofExpr_spell hsize hc hi
  refine ⟨c.term.spell, ht, c.term.isCurried_spell, parse_render_of_names (Term.names_spell hi), hs,
    ?_, fun I => ?_⟩
  · rw [Term.recompile, ht, ok_bind, hs]
  · simp only [Program.run, Program.tree, Program.term, hp, hc, ht, Except.mapError, ok_bind, pure,
      Except.pure]

/-- A parameter list, a call with two arguments, a shadowed parameter and a free name. -/
theorem readBack_round_trip_shadowed :
    parse "lambda x, x0: k(x0, x -> x)" =
      .ok (.lam ["x", "x0"] (.call (.name "k") [.name "x0", .lam ["x"] (.name "x")])) ∧
    ∃ tree, (Term.abs ⟨0⟩ (.abs ⟨1⟩ (.app (.app (.free "k") (.var ⟨1⟩))
        (.abs ⟨2⟩ (.var ⟨2⟩))))).toExpr = .ok tree ∧
      tree.isCurried = true ∧ parse tree.render = .ok tree ∧
      Canonical.ofExpr .keep tree = .ok ⟨.abs ⟨0⟩ (.abs ⟨1⟩ (.app (.app (.free "k") (.var ⟨1⟩))
        (.abs ⟨2⟩ (.var ⟨2⟩)))), 3⟩ := by
  have hp : parse "lambda x, x0: k(x0, x -> x)" =
      .ok (.lam ["x", "x0"] (.call (.name "k") [.name "x0", .lam ["x"] (.name "x")])) := by
    decide +kernel
  have hc : Canonical.ofExpr .keep
      (.lam ["x", "x0"] (.call (.name "k") [.name "x0", .lam ["x"] (.name "x")])) =
      .ok ⟨.abs ⟨0⟩ (.abs ⟨1⟩ (.app (.app (.free "k") (.var ⟨1⟩)) (.abs ⟨2⟩ (.var ⟨2⟩)))), 3⟩ := by
    decide +kernel
  obtain ⟨tree, ht, hcur, hr, ho, -⟩ := readBack_round_trip hp (by decide) hc
  exact ⟨hp, tree, ht, hcur, hr, ho⟩

end Curried
