import Curried.Proofs.Numbering
import Curried.Proofs.Success

namespace Curried

inductive Iterated {α : Type} (r : α → α → Prop) : Nat → α → α → Prop
  | zero (a : α) : Iterated r 0 a a
  | succ {n : Nat} {a b c : α} : r a b → Iterated r n b c → Iterated r (n + 1) a c

namespace Iterated

variable {α : Type} {r : α → α → Prop}

/-- With at most one step from each point, a run ends where a shorter one could not go on. -/
theorem eq_of_le (hdet : ∀ a b c, r a b → r a c → b = c) {m n : Nat} {a b c : α}
    (hb : Iterated r m a b) (hc : Iterated r n a c) (hstop : ∀ d, ¬ r b d) (hmn : m ≤ n) :
    m = n ∧ b = c := by
  induction hb generalizing n with
  | zero a =>
    cases hc with
    | zero => exact ⟨rfl, rfl⟩
    | succ h _ => exact absurd h (hstop _)
  | succ h _ ih =>
    cases hc with
    | zero => omega
    | succ h' hc =>
      obtain rfl := hdet _ _ _ h h'
      obtain ⟨hm, hb⟩ := ih hc hstop (by omega)
      exact ⟨by omega, hb⟩

theorem one {a b : α} (h : r a b) : Iterated r 1 a b := .succ h (.zero b)

/-- A number of steps can be cut in two. -/
theorem add_iff {m n : Nat} {a c : α} :
    Iterated r (m + n) a c ↔ ∃ b, Iterated r m a b ∧ Iterated r n b c := by
  induction m generalizing a with
  | zero =>
    rw [Nat.zero_add]
    constructor
    · intro h
      exact ⟨a, .zero a, h⟩
    · rintro ⟨b, hb, hc⟩
      cases hb
      exact hc
  | succ m ih =>
    rw [Nat.add_right_comm]
    constructor
    · intro h
      cases h with
      | succ hd h =>
        obtain ⟨b, hb, hc⟩ := ih.mp h
        exact ⟨b, .succ hd hb, hc⟩
    · rintro ⟨b, hb, hc⟩
      cases hb with
      | succ hd hb => exact .succ hd (ih.mpr ⟨b, hb, hc⟩)

end Iterated

namespace Term

def isAbs : Term → Bool
  | abs .. => true
  | _ => false

/-- Puts `v` in for `x`, except under a binder that hides it. Only closed terms are put in, so no
binder on the way captures a variable of `v`. -/
def subst (t : Term) (x : Ident) (v : Term) : Term :=
  match t with
  | var y => if y = x then v else var y
  | free name => free name
  | abs y body => if y = x then abs y body else abs y (body.subst x v)
  | app callee argument => app (callee.subst x v) (argument.subst x v)

inductive Step : Term → Term → Prop
  | beta (x : Ident) (b : Term) {v : Term} : v.isAbs = true → Step (app (abs x b) v) (b.subst x v)
  | callee {f g : Term} (a : Term) : Step f g → Step (app f a) (app g a)
  | argument {f a b : Term} : f.isAbs = true → Step a b → Step (app f a) (app f b)

theorem not_step_of_isAbs {t u : Term} (ht : t.isAbs = true) : ¬ Step t u := by
  intro h
  cases h <;> cases ht

theorem step_deterministic (t u w : Term) (hu : Step t u) (hw : Step t w) : u = w := by
  -- The three rules exclude each other, since an abstraction takes no step.
  induction hu generalizing w with
  | beta x b hv =>
    cases hw with
    | beta => rfl
    | callee a h => exact absurd h (not_step_of_isAbs rfl)
    | argument hf h => exact absurd h (not_step_of_isAbs hv)
  | callee a h ih =>
    cases hw with
    | beta x b hv => exact absurd h (not_step_of_isAbs rfl)
    | callee a h' => rw [ih _ h']
    | argument hf h' => exact absurd h (not_step_of_isAbs hf)
  | argument hf h ih =>
    cases hw with
    | beta x b hv => exact absurd h (not_step_of_isAbs hv)
    | callee a h' => exact absurd h' (not_step_of_isAbs hf)
    | argument _ h' => rw [ih _ h']

/-- Reduction does not go on from an abstraction. -/
theorem eq_of_iterated_of_le {m n : Nat} {t u w : Term} (hu : Iterated Step m t u)
    (hw : Iterated Step n t w) (ha : u.isAbs = true) (hmn : m ≤ n) : m = n ∧ u = w :=
  hu.eq_of_le step_deterministic hw (fun _ => not_step_of_isAbs ha) hmn

/-- A term reduces to one abstraction at most. -/
theorem eq_of_iterated {m n : Nat} {t u w : Term} (hu : Iterated Step m t u)
    (hw : Iterated Step n t w) (hua : u.isAbs = true) (hwa : w.isAbs = true) : u = w := by
  rcases Nat.le_total m n with hmn | hnm
  · exact (eq_of_iterated_of_le hu hw hua hmn).2
  · exact (eq_of_iterated_of_le hw hu hwa hnm).2.symm

end Term

namespace Nameless

def isAbs : Nameless → Bool
  | abs _ => true
  | _ => false

def inst (m : Nameless) (d : Nat) (v : Nameless) : Nameless :=
  match m with
  | bound i => if i = d then v else bound i
  | free name => free name
  | abs body => abs (body.inst (d + 1) v)
  | app callee argument => app (callee.inst d v) (argument.inst d v)

inductive Step : Nameless → Nameless → Prop
  | beta (b : Nameless) {v : Nameless} : v.isAbs = true → Step (app (abs b) v) (b.inst 0 v)
  | callee {f g : Nameless} (a : Nameless) : Step f g → Step (app f a) (app g a)
  | argument {f a b : Nameless} : f.isAbs = true → Step a b → Step (app f a) (app f b)

/-- A form whose distances are all shorter has no such variable. -/
theorem inst_of_below {m : Nameless} {d : Nat} (h : m.Below d) (v : Nameless) :
    m.inst d v = m := by
  induction m generalizing d with
  | bound i =>
    have hi : i ≠ d := Nat.ne_of_lt h
    simp [inst, hi]
  | free name => rfl
  | abs body ih => simp only [inst, ih h]
  | app callee argument ihf iha => simp only [inst, ihf h.1, iha h.2]

end Nameless

theorem idxOf?_append {α : Type} [BEq α] (xs ys : List α) (a : α) :
    (xs ++ ys).idxOf? a = (xs.idxOf? a).or ((ys.idxOf? a).map (· + xs.length)) :=
  List.findIdx?_append

theorem lt_length_of_idxOf? {α : Type} [BEq α] [LawfulBEq α] {xs : List α} {a : α} {i : Nat}
    (h : xs.idxOf? a = some i) : i < xs.length :=
  (List.idxOf?_eq_some_iff.mp h).1

namespace Term

theorem nameless?_app_eq_some_iff {scope : List Ident} {f a : Term} {m : Nameless} :
    (app f a).nameless? scope = some m ↔
      ∃ F A, f.nameless? scope = some F ∧ a.nameless? scope = some A ∧ m = .app F A :=
  option_map₂_eq_some_iff

theorem nameless?_abs_eq_some_iff {scope : List Ident} {x : Ident} {b : Term} {m : Nameless} :
    (abs x b).nameless? scope = some m ↔ ∃ B, b.nameless? (x :: scope) = some B ∧ m = .abs B := by
  simp only [nameless?, Option.map_eq_some_iff, @eq_comm _ m]

theorem isAbs_of_nameless? {scope : List Ident} {t : Term} {m : Nameless}
    (h : t.nameless? scope = some m) : t.isAbs = m.isAbs := by
  cases t with
  | var x =>
    obtain ⟨i, _, rfl⟩ := Option.map_eq_some_iff.mp h
    rfl
  | free name =>
    cases h
    rfl
  | abs x b =>
    obtain ⟨B, _, rfl⟩ := nameless?_abs_eq_some_iff.mp h
    rfl
  | app f a =>
    obtain ⟨F, A, _, _, rfl⟩ := nameless?_app_eq_some_iff.mp h
    rfl

/-- Further binders on the outside do not matter. -/
theorem nameless?_append {scope : List Ident} {t : Term} {m : Nameless}
    (h : t.nameless? scope = some m) (outer : List Ident) :
    t.nameless? (scope ++ outer) = some m := by
  induction t generalizing scope m with
  | var x =>
    obtain ⟨i, hi, rfl⟩ := Option.map_eq_some_iff.mp h
    simp [nameless?, idxOf?_append, hi]
  | free name => exact h
  | abs x b ih =>
    obtain ⟨B, hB, rfl⟩ := nameless?_abs_eq_some_iff.mp h
    exact nameless?_abs_eq_some_iff.mpr ⟨B, ih hB, rfl⟩
  | app f a ihf iha =>
    obtain ⟨F, A, hF, hA, rfl⟩ := nameless?_app_eq_some_iff.mp h
    exact nameless?_app_eq_some_iff.mpr ⟨F, A, ihf hF, iha hA, rfl⟩

theorem below_of_nameless? {scope : List Ident} {t : Term} {m : Nameless}
    (h : t.nameless? scope = some m) : m.Below scope.length := by
  induction t generalizing scope m with
  | var x =>
    obtain ⟨i, hi, rfl⟩ := Option.map_eq_some_iff.mp h
    exact lt_length_of_idxOf? hi
  | free name =>
    cases h
    trivial
  | abs x b ih =>
    obtain ⟨B, hB, rfl⟩ := nameless?_abs_eq_some_iff.mp h
    have hb : B.Below (x :: scope).length := ih hB
    exact hb
  | app f a ihf iha =>
    obtain ⟨F, A, hF, hA, rfl⟩ := nameless?_app_eq_some_iff.mp h
    exact ⟨ihf hF, iha hA⟩

/-- An outermost binder that an inner one hides is not referred to. -/
theorem nameless?_of_hidden {scope : List Ident} {x : Ident} (hx : x ∈ scope) {t : Term}
    {m : Nameless} (h : t.nameless? (scope ++ [x]) = some m) : t.nameless? scope = some m := by
  induction t generalizing scope m with
  | var y =>
    obtain ⟨i, hi, rfl⟩ := Option.map_eq_some_iff.mp h
    rw [idxOf?_append] at hi
    cases hy : scope.idxOf? y with
    | some j =>
      rw [hy] at hi
      cases hi
      simp [nameless?, hy]
    | none =>
      have hyx : y ≠ x := by
        rintro rfl
        exact List.idxOf?_eq_none_iff.mp hy hx
      simp [hy, List.idxOf?_cons, hyx.symm] at hi
  | free name => exact h
  | abs y b ih =>
    obtain ⟨B, hB, rfl⟩ := nameless?_abs_eq_some_iff.mp h
    exact nameless?_abs_eq_some_iff.mpr ⟨B, ih (List.mem_cons_of_mem y hx) hB, rfl⟩
  | app f a ihf iha =>
    obtain ⟨F, A, hF, hA, rfl⟩ := nameless?_app_eq_some_iff.mp h
    exact nameless?_app_eq_some_iff.mpr ⟨F, A, ihf hx hF, iha hx hA, rfl⟩

/-- Putting a closed term in for the outermost binder. -/
theorem nameless?_subst {x : Ident} {v : Term} {V : Nameless} (hv : v.nameless? [] = some V)
    {scope : List Ident} (hx : x ∉ scope) {b : Term} {B : Nameless}
    (hb : b.nameless? (scope ++ [x]) = some B) :
    (b.subst x v).nameless? scope = some (B.inst scope.length V) := by
  induction b generalizing scope B with
  | var y =>
    obtain ⟨i, hi, rfl⟩ := Option.map_eq_some_iff.mp hb
    rw [idxOf?_append] at hi
    by_cases hyx : y = x
    · subst hyx
      have hy : scope.idxOf? y = none := List.idxOf?_eq_none_iff.mpr hx
      have hd : scope.length = i := by simpa [hy, List.idxOf?_cons] using hi
      have hV : v.nameless? scope = some V := nameless?_append hv scope
      simp [subst, Nameless.inst, hd, hV]
    · have hy : scope.idxOf? y = some i := by
        simpa [List.idxOf?_cons, Ne.symm hyx] using hi
      have hd : i ≠ scope.length := Nat.ne_of_lt (lt_length_of_idxOf? hy)
      simp [subst, hyx, nameless?, hy, Nameless.inst, hd]
  | free name =>
    cases hb
    rfl
  | abs y b ih =>
    obtain ⟨B, hB, rfl⟩ := nameless?_abs_eq_some_iff.mp hb
    by_cases hyx : y = x
    · subst hyx
      have hB' : b.nameless? (y :: scope) = some B := nameless?_of_hidden List.mem_cons_self hB
      have hi : B.inst (scope.length + 1) V = B := Nameless.inst_of_below (below_of_nameless? hB') V
      simp [subst, nameless?, hB', Nameless.inst, hi]
    · have hx' : x ∉ y :: scope := by simp [Ne.symm hyx, hx]
      have hi := ih hx' hB
      simpa [subst, hyx, nameless?, Nameless.inst] using hi
  | app f a ihf iha =>
    obtain ⟨F, A, hF, hA, rfl⟩ := nameless?_app_eq_some_iff.mp hb
    exact nameless?_app_eq_some_iff.mpr ⟨_, _, ihf hx hF, iha hx hA, rfl⟩

theorem exists_eq_abs_of_nameless? {scope : List Ident} {t : Term} {B : Nameless}
    (h : t.nameless? scope = some (.abs B)) :
    ∃ x b, t = abs x b ∧ b.nameless? (x :: scope) = some B := by
  cases t with
  | var x => simp [nameless?] at h
  | free name => cases h
  | abs x b =>
    obtain ⟨B', hB, he⟩ := nameless?_abs_eq_some_iff.mp h
    cases he
    exact ⟨x, b, rfl, hB⟩
  | app f a =>
    obtain ⟨F, A, _, _, he⟩ := nameless?_app_eq_some_iff.mp h
    cases he

theorem exists_eq_app_of_nameless? {scope : List Ident} {t : Term} {F A : Nameless}
    (h : t.nameless? scope = some (.app F A)) :
    ∃ f a, t = app f a ∧ f.nameless? scope = some F ∧ a.nameless? scope = some A := by
  cases t with
  | var x => simp [nameless?] at h
  | free name => cases h
  | abs x b =>
    obtain ⟨B, _, he⟩ := nameless?_abs_eq_some_iff.mp h
    cases he
  | app f a =>
    obtain ⟨F, A, hF, hA, he⟩ := nameless?_app_eq_some_iff.mp h
    cases he
    exact ⟨f, a, rfl, hF, hA⟩

/-- A step of the nameless form is a step of the term. -/
theorem exists_step {m m' : Nameless} (hm : m.Step m') {t : Term}
    (ht : t.nameless? [] = some m) : ∃ u, t.Step u ∧ u.nameless? [] = some m' := by
  induction hm generalizing t with
  | beta B hV =>
    obtain ⟨f, v, rfl, hf, hv⟩ := exists_eq_app_of_nameless? ht
    obtain ⟨x, b, rfl, hb⟩ := exists_eq_abs_of_nameless? hf
    refine ⟨b.subst x v, .beta x b ?_, nameless?_subst hv List.not_mem_nil hb⟩
    rw [isAbs_of_nameless? hv, hV]
  | callee A _ ih =>
    obtain ⟨f, a, rfl, hf, ha⟩ := exists_eq_app_of_nameless? ht
    obtain ⟨g, hg, hG⟩ := ih hf
    exact ⟨app g a, .callee a hg, nameless?_app_eq_some_iff.mpr ⟨_, _, hG, ha, rfl⟩⟩
  | argument hF _ ih =>
    obtain ⟨f, a, rfl, hf, ha⟩ := exists_eq_app_of_nameless? ht
    obtain ⟨b, hb, hB⟩ := ih ha
    have hv : f.isAbs = true := by rw [isAbs_of_nameless? hf, hF]
    exact ⟨app f b, .argument hv hb, nameless?_app_eq_some_iff.mpr ⟨_, _, hf, hB, rfl⟩⟩

theorem exists_iterated {n : Nat} {m m' : Nameless} (hm : Iterated Nameless.Step n m m') {t : Term}
    (ht : t.nameless? [] = some m) : ∃ u, Iterated Step n t u ∧ u.nameless? [] = some m' := by
  induction hm generalizing t with
  | zero m => exact ⟨t, .zero t, ht⟩
  | succ h _ ih =>
    obtain ⟨u, hu, hm⟩ := exists_step h ht
    obtain ⟨w, hw, hm'⟩ := ih hm
    exact ⟨w, .succ hu hw, hm'⟩

end Term

end Curried
