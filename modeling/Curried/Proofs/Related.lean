import Curried.Proofs.Success
import Curried.Value
import Mathlib.Data.List.Forall2

namespace Curried

variable {ν : Type}

abbrev CodeRel := List String → List String → Expr → Expr → Prop

namespace Value

inductive Related (R : CodeRel) : Value ν → Value ν → Prop
  | int (n : Int64) : Related R (.int n) (.int n)
  | closure {params params' : List String} {body body' : Expr} {env env' : Env ν} :
      R (env.map Prod.fst) (env'.map Prod.fst) (.lam params body) (.lam params' body') →
      List.Forall₂ (Related R) (env.map Prod.snd) (env'.map Prod.snd) →
      Related R (.closure params body env) (.closure params' body' env')
  | native (f : Builtin) {received received' : List (Value ν)} :
      List.Forall₂ (Related R) received received' →
      Related R (.native (.builtin f) received) (.native (.builtin f) received')

inductive Plain : Value ν → Prop
  | int (n : Int64) : Plain (.int n)
  | closure (params : List String) (body : Expr) {env : Env ν} :
      (∀ v ∈ env.map Prod.snd, Plain v) → Plain (.closure params body env)
  | native (f : Builtin) {received : List (Value ν)} :
      (∀ v ∈ received, Plain v) → Plain (.native (.builtin f) received)

inductive Ground : Value ν → Prop
  | int (n : Int64) : Ground (.int n)
  | native (f : Builtin) {received : List (Value ν)} :
      (∀ v ∈ received, Ground v) → Ground (.native (.builtin f) received)

theorem Ground.plain {v : Value ν} (h : v.Ground) : v.Plain := by
  induction h with
  | int n => exact .int n
  | native f _ ih => exact .native f ih

theorem Plain.related {R : CodeRel} (hR : ∀ names e, R names names e e) {v : Value ν}
    (h : v.Plain) : v.Related R v := by
  induction h with
  | int n => exact .int n
  | closure params body _ ih => exact .closure (hR _ _) (List.forall₂_same.mpr ih)
  | native f _ ih => exact .native f (List.forall₂_same.mpr ih)

theorem Ground.related (R : CodeRel) {v : Value ν} (h : v.Ground) : v.Related R v := by
  induction h with
  | int n => exact .int n
  | native f _ ih => exact .native f (List.forall₂_same.mpr ih)

end Value

abbrev Env.Related (R : CodeRel) (env env' : Env ν) : Prop :=
  List.Forall₂ (Value.Related R) (env.map Prod.snd) (env'.map Prod.snd)

def Env.SelfRelated (R : CodeRel) (env : Env ν) : Prop :=
  ∀ x v, env.lookup x = some v → v.Related R v

theorem Env.selfRelated_of_forall {R : CodeRel} {env : Env ν}
    (h : ∀ binding ∈ env, binding.2.Related R binding.2) : Env.SelfRelated R env := by
  intro x v hv
  obtain ⟨before, after, henv, -⟩ := List.lookup_eq_some_iff.mp hv
  exact h (x, v) (by simp [henv])

/-- Looking a name up finds the value at its first position among the names. -/
theorem lookup_eq_getElem? (env : Env ν) (x : String) :
    env.lookup x = ((env.map Prod.fst).idxOf? x).bind fun i => (env.map Prod.snd)[i]? := by
  induction env with
  | nil => rfl
  | cons binding env ih =>
    obtain ⟨y, v⟩ := binding
    by_cases h : x = y
    · subst h
      simp [List.idxOf?_cons]
    · have hb : (x == y) = false := beq_false_of_ne h
      have hb' : (y == x) = false := beq_false_of_ne (Ne.symm h)
      rw [List.lookup_cons, hb, List.map_cons, List.idxOf?_cons, hb']
      simp only [ih, Bool.false_eq_true, ↓reduceIte, Option.bind_map, List.map_cons]
      rfl

/-- Names at the same position are bound to related values, or both to none. -/
theorem lookup_related {R : CodeRel} {env env' : Env ν}
    (h : Env.Related R env env') {x y : String}
    (hxy : (env.map Prod.fst).idxOf? x = (env'.map Prod.fst).idxOf? y) :
    (∃ v w, env.lookup x = some v ∧ env'.lookup y = some w ∧ v.Related R w) ∨
      (env.lookup x = none ∧ env'.lookup y = none ∧ (env.map Prod.fst).idxOf? x = none) := by
  rw [lookup_eq_getElem? env, lookup_eq_getElem? env', ← hxy]
  cases hi : (env.map Prod.fst).idxOf? x with
  | none => exact .inr ⟨rfl, rfl, rfl⟩
  | some i =>
    obtain ⟨hlt, -⟩ := List.idxOf?_eq_some_iff.mp hi
    rw [List.length_map] at hlt
    have hv : i < (env.map Prod.snd).length := by rwa [List.length_map]
    have hw : i < (env'.map Prod.snd).length := h.length_eq ▸ hv
    exact .inl ⟨_, _, List.getElem?_eq_getElem hv, List.getElem?_eq_getElem hw, h.get hv hw⟩

/-- Binding parameters puts their names in front of those bound before, the last one first. -/
theorem fst_bind {params : List String} {args : List (Value ν)}
    (h : params.length = args.length) (env : Env ν) :
    ((params.zip args).reverse ++ env).map Prod.fst = params.reverse ++ env.map Prod.fst := by
  rw [List.map_append, List.map_reverse, List.map_fst_zip (Nat.le_of_eq h)]

theorem snd_bind {params : List String} {args : List (Value ν)}
    (h : params.length = args.length) (env : Env ν) :
    ((params.zip args).reverse ++ env).map Prod.snd = args.reverse ++ env.map Prod.snd := by
  rw [List.map_append, List.map_reverse, List.map_snd_zip (Nat.le_of_eq h.symm)]

theorem bind_related {R : CodeRel} {params params' : List String} {args args' : List (Value ν)}
    {env env' : Env ν} (hp : params.length = args.length) (hp' : params'.length = args'.length)
    (ha : List.Forall₂ (Value.Related R) args args') (he : Env.Related R env env') :
    Env.Related R ((params.zip args).reverse ++ env) ((params'.zip args').reverse ++ env') := by
  rw [Env.Related, snd_bind hp, snd_bind hp']
  exact List.rel_append (List.forall₂_reverse_iff.mpr ha) he

def Builtin.compute : Builtin → List Int64 → Int64
  | inc, [n] => n + 1
  | dec, [n] => n - 1
  | add, [m, n] => m + n
  | mul, [m, n] => m * n
  | isZero, [n] => if n = 0 then 1 else 0
  | _, _ => 0

/-- A built-in function reads all its arguments as integers, the first ones first, and then computes
with these. -/
theorem Builtin.run_eq [Signature ν] (f : Builtin) (args : List (Value ν)) :
    f.run args =
      if args.length = f.arity then args.mapM Value.toInt >>= fun ns => .ok (.int (f.compute ns))
      else .error (.arity f.name f.arity args.length) := by
  cases f with
  | inc | dec | isZero =>
    match args with
    | [] => rfl
    | [a] => simp only [run, List.mapM_cons, List.mapM_nil]; cases a.toInt <;> rfl
    | _ :: _ :: _ => rfl
  | add | mul =>
    match args with
    | [] => rfl
    | [_] => rfl
    | [a, b] =>
      simp only [run, List.mapM_cons, List.mapM_nil]
      cases a.toInt with
      | error err => rfl
      | ok m => cases b.toInt <;> rfl
    | _ :: _ :: _ :: _ => rfl

theorem mapM_toInt_of_related [Signature ν] {R : CodeRel} {args args' : List (Value ν)}
    {ns : List Int64} (h : List.Forall₂ (Value.Related R) args args')
    (hns : args.mapM Value.toInt = .ok ns) : args'.mapM Value.toInt = .ok ns := by
  induction h generalizing ns with
  | nil => exact hns
  | cons hv _ ih =>
    rw [List.mapM_cons] at hns ⊢
    obtain ⟨n, hn, hrest⟩ := except_bind_eq_ok_iff.mp hns
    obtain ⟨ms, hms, hcons⟩ := except_bind_eq_ok_iff.mp hrest
    cases hv with
    | int m => rw [hn, ok_bind, ih hms, ok_bind, hcons]
    | closure _ _ | native _ _ => cases hn

/-- A built-in function gives integers only, and the same ones for arguments that are alike. -/
theorem Builtin.run_of_related [Signature ν] {R : CodeRel} {f : Builtin}
    {args args' : List (Value ν)} {v : Value ν} (h : List.Forall₂ (Value.Related R) args args')
    (hv : f.run args = .ok v) : ∃ n, v = .int n ∧ f.run args' = .ok (.int n) := by
  rw [Builtin.run_eq] at hv ⊢
  split at hv
  · next hl =>
    obtain ⟨ns, hns, hv⟩ := except_bind_eq_ok_iff.mp hv
    cases hv
    rw [if_pos (h.length_eq ▸ hl), mapM_toInt_of_related h hns]
    exact ⟨_, rfl, rfl⟩
  · cases hv

end Curried
