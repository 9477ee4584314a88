import Curried.Proofs.Counting
import Curried.Proofs.Regrouping
import Curried.Proofs.Renaming

/-!
Currying keeps results. An expression with one function for each parameter and one call for each
argument gives every integer that the expression itself gives, if the call limit leaves room for the
calls in between. Each call of the original, with all its arguments, becomes a row of calls with one
argument each; a function of several parameters is entered by the last of them, and so is a built-in
function.
-/

namespace Curried

namespace Expr

def lams : List String → Expr → Expr
  | x :: y :: params, body => .lam [x] (lams (y :: params) body)
  | params, body => .lam params body

def calls : Expr → List Expr → Expr
  | callee, a :: b :: args => calls (.call callee [a]) (b :: args)
  | callee, args => .call callee args

mutual
def curry : Expr → Expr
  | .name x => .name x
  | .int n => .int n
  | .lam params body => lams params body.curry
  | .call callee args => calls callee.curry (curryAll args)
def curryAll : List Expr → List Expr
  | [] => []
  | a :: as => a.curry :: curryAll as
end

/-- Whatever its parameters, a curried function is a function. -/
theorem exists_lams_eq_lam (params : List String) (body : Expr) :
    ∃ params' body', lams params body = .lam params' body' := by
  match params with
  | [] | [_] | _ :: _ :: _ => exact ⟨_, _, rfl⟩

theorem exists_parts_lams (params : List String) (body : Expr) :
    ∃ groups, Parts params groups ∧ lams params body = lamGroups groups body := by
  fun_induction lams params body with
  | case1 x y params body ih =>
    obtain ⟨groups, hp, h⟩ := ih
    refine ⟨[x] :: groups, ?_, by rw [h]; rfl⟩
    exact .cut (List.cons_ne_nil x []) (List.cons_ne_nil y params) hp
  | case2 params body _ => exact ⟨[params], .whole params, rfl⟩

theorem exists_parts_calls (callee : Expr) (args : List Expr) :
    ∃ groups, Parts args groups ∧ calls callee args = callGroups callee groups := by
  fun_induction calls callee args with
  | case1 callee a b args ih =>
    obtain ⟨groups, hp, h⟩ := ih
    refine ⟨[a] :: groups, ?_, by rw [h]; rfl⟩
    exact .cut (List.cons_ne_nil a []) (List.cons_ne_nil b args) hp
  | case2 callee args _ => exact ⟨[args], .whole args, rfl⟩

mutual
/-- Currying cuts all lists of parameters and arguments wherever they can be cut. -/
theorem regrouped_curry (e : Expr) : Regrouped e e.curry := by
  match e with
  | .name x =>
    rw [curry]
    exact .name x
  | .int n =>
    rw [curry]
    exact .int n
  | .lam params body =>
    obtain ⟨groups, hp, h⟩ := exists_parts_lams params body.curry
    rw [curry, h]
    exact .lam hp (regrouped_curry body)
  | .call callee args =>
    obtain ⟨groups, hp, h⟩ := exists_parts_calls callee.curry (curryAll args)
    rw [curry, h]
    exact .call (regrouped_curry callee) (regroupedAll_curryAll args) hp
theorem regroupedAll_curryAll (as : List Expr) : RegroupedAll as (curryAll as) := by
  match as with
  | [] =>
    rw [curryAll]
    exact .nil
  | a :: as =>
    rw [curryAll]
    exact .cons (regrouped_curry a) (regroupedAll_curryAll as)
end

/-- Currying keeps the nameless form, which is curried in any case. -/
theorem nameless?_curry (σ : List String) (e : Expr) : e.curry.nameless? σ = e.nameless? σ :=
  (regrouped_curry e).nameless? σ

/-- What `lams` and `calls` leave as it is. -/
theorem length_le_one {α : Type} {l : List α} (h : ∀ x y l', l = x :: y :: l' → False) :
    l.length ≤ 1 := by
  cases l with
  | nil => exact Nat.zero_le 1
  | cons x l =>
    cases l with
    | nil => exact Nat.le_refl 1
    | cons y l => exact absurd rfl (h x y l)

theorem isCurried_lams {params : List String} (hp : params ≠ []) {body : Expr}
    (h : body.isCurried = true) : (lams params body).isCurried = true := by
  fun_induction lams params body with
  | case1 x y params body ih => exact ih (List.cons_ne_nil y params) h
  | case2 params body hn =>
    have hone : params.length = 1 := Nat.le_antisymm (length_le_one hn) (List.length_pos_iff.mpr hp)
    simp [isCurried, hone, h]

theorem isCurried_calls {callee : Expr} {args : List Expr} (ha : args ≠ [])
    (hf : callee.isCurried = true) (has : areCurried args = true) :
    (calls callee args).isCurried = true := by
  fun_induction calls callee args with
  | case1 callee a b args ih =>
    simp only [areCurried, Bool.and_eq_true] at has
    apply ih (List.cons_ne_nil b args)
    · simp [isCurried, areCurried, hf, has.1]
    · simp [areCurried, has.2]
  | case2 callee args hn =>
    have hone : args.length = 1 := Nat.le_antisymm (length_le_one hn) (List.length_pos_iff.mpr ha)
    simp [isCurried, hone, hf, has]

mutual
theorem isCurried_curry {policy : FreeNames} {scope : List String} {e : Expr}
    (h : e.Admissible policy scope) : e.curry.isCurried = true := by
  match e with
  | .name x | .int n => rfl
  | .lam params body =>
    rw [Admissible] at h
    rw [curry]
    exact isCurried_lams h.1 (isCurried_curry h.2.2)
  | .call callee args =>
    rw [Admissible] at h
    obtain ⟨hne, hf, hargs⟩ := h
    have hne' : curryAll args ≠ [] := by
      cases args with
      | nil => exact absurd rfl hne
      | cons a as => exact List.cons_ne_nil _ _
    rw [curry]
    exact isCurried_calls hne' (isCurried_curry hf) (areCurried_curryAll hargs)
theorem areCurried_curryAll {policy : FreeNames} {scope : List String} {as : List Expr}
    (h : AdmissibleAll policy scope as) : areCurried (curryAll as) = true := by
  match as with
  | [] => rfl
  | a :: as =>
    rw [AdmissibleAll] at h
    rw [curryAll, areCurried, isCurried_curry h.1, areCurried_curryAll h.2, Bool.and_self]
end

end Expr

variable {ν : Type} [Host ν]

section

open Direct

def Yields (globals env : Env ν) (e : Expr) (cost : Nat) (v : Value ν) : Prop :=
  ∀ limit made, made + cost ≤ limit →
    eval ⟨globals, limit⟩ (call ⟨globals, limit⟩) env e made = .ok (v, made + cost)

def YieldsAll (globals env : Env ν) (as : List Expr) (cost : Nat) (vs : List (Value ν)) : Prop :=
  ∀ limit made, made + cost ≤ limit →
    evalAll ⟨globals, limit⟩ (call ⟨globals, limit⟩) env as made = .ok (vs, made + cost)

def CallYields (globals : Env ν) (f : Value ν) (args : List (Value ν)) (cost : Nat)
    (v : Value ν) : Prop :=
  ∀ limit made, made + cost ≤ limit →
    call ⟨globals, limit⟩ f args made = .ok (v, made + cost)

variable {globals env : Env ν}

theorem yieldsAll_nil : YieldsAll globals env [] 0 [] := by
  intro limit made _
  rw [evalAll_nil_apply]
  rfl

theorem Yields.singleton {a : Expr} {cost : Nat} {v : Value ν} (h : Yields globals env a cost v) :
    YieldsAll globals env [a] cost [v] := by
  intro limit made hl
  rw [evalAll_cons_apply, h limit made hl, ok_bind, evalAll_nil_apply]
  rfl

theorem Yields.call {f : Expr} {as : List Expr} {m n k : Nat} {callee v : Value ν}
    {args : List (Value ν)} (hf : Yields globals env f m callee)
    (has : YieldsAll globals env as n args) (hc : CallYields globals callee args k v) :
    Yields globals env (.call f as) (m + n + k) v := by
  intro limit made hl
  rw [eval_call_apply, hf limit made (by omega), ok_bind, has limit (made + m) (by omega), ok_bind,
    hc limit (made + m + n) (by omega)]
  simp only [Nat.add_assoc]

theorem callYields_of_enter {f v : Value ν} {args : List (Value ν)} {body : Expr} {cost : Nat}
    (hf : f.react args = .ok (.enter body env)) (hb : Yields globals env body cost v) :
    CallYields globals f args (cost + 1) v := by
  intro limit made hl
  have hroom : ¬ limit < made + 1 := by omega
  rw [call_eq_callOnce, callOnce_apply, if_neg hroom, hf, ok_bind, follow,
    hb limit (made + 1) (by omega), Nat.add_assoc, Nat.add_comm 1]

theorem callYields_of_yield {f v : Value ν} {args : List (Value ν)}
    (hf : f.react args = .ok (.yield v [])) : CallYields globals f args 1 v := by
  intro limit made hl
  have hroom : ¬ limit < made + 1 := by omega
  rw [call_eq_callOnce, callOnce_apply, if_neg hroom, hf, ok_bind, follow]

theorem not_callYields_int (n : Int64) (args : List (Value ν)) (cost : Nat) (v : Value ν) :
    ¬ CallYields globals (.int n) args cost v := by
  intro h
  have hc := h cost 0 (by omega)
  rw [call_eq_callOnce, callOnce_apply] at hc
  split at hc <;> cases hc

/-- Calling `f` with the first argument, its value with the second, and so on, gives a value in the
end. Without arguments there is still one call. -/
inductive InTurn (globals : Env ν) : Value ν → List (Value ν) → Value ν → Prop
  | last {f v : Value ν} {args : List (Value ν)} {cost : Nat} : args.length ≤ 1 →
      CallYields globals f args cost v → InTurn globals f args v
  | more {f g a v : Value ν} {args : List (Value ν)} {cost : Nat} : args ≠ [] →
      CallYields globals f [a] cost g → InTurn globals g args v → InTurn globals f (a :: args) v

theorem not_inTurn_int {n : Int64} {args : List (Value ν)} {v : Value ν} :
    ¬ InTurn globals (.int n) args v := by
  intro h
  cases h with
  | last _ hc => exact not_callYields_int _ _ _ _ hc
  | more _ hc _ => exact not_callYields_int _ _ _ _ hc

/-- Arguments that are evaluated one at a time, between the calls. -/
theorem InTurn.yields_calls {f : Value ν} {args : List (Value ν)} {v : Value ν}
    (h : InTurn globals f args v) {callee : Expr} {as : List Expr} {m : Nat}
    (hf : Yields globals env callee m f)
    (has : List.Forall₂ (fun a w => ∃ n, Yields globals env a n w) as args) :
    ∃ cost, Yields globals env (Expr.calls callee as) cost v := by
  induction h generalizing callee as m with
  | last hl hc =>
    match has with
    | .nil => exact ⟨_, hf.call yieldsAll_nil hc⟩
    | .cons ⟨n, ha⟩ .nil => exact ⟨_, hf.call ha.singleton hc⟩
    | .cons _ (.cons _ _) =>
      simp only [List.length_cons] at hl
      omega
  | more hne hc _ ih =>
    match has with
    | .cons _ .nil => exact absurd rfl hne
    | .cons ⟨n, ha⟩ (.cons hb has) =>
      rw [Expr.calls]
      exact ih (hf.call ha.singleton hc) (.cons hb has)

/-- A curried function is entered after its last argument. -/
theorem inTurn_closure {params params' : List String} {body body' : Expr} {args : List (Value ν)}
    {cost : Nat} {v : Value ν} (hl : params.length = args.length)
    (hlams : Expr.lams params body = .lam params' body')
    (hb : Yields globals ((params.zip args).reverse ++ env) body cost v) :
    InTurn globals (.closure params' body' env) args v := by
  fun_induction Expr.lams params body generalizing params' body' args env with
  | case1 x y params body ih =>
    cases hlams
    match args with
    | [] | [_] => cases hl
    | a :: b :: args =>
      obtain ⟨params', body', hlams⟩ := Expr.exists_lams_eq_lam (y :: params) body
      have hr : (Value.closure [x] (Expr.lams (y :: params) body) env).react [a] =
          .ok (.enter (Expr.lams (y :: params) body) ((x, a) :: env)) := rfl
      -- Between two arguments there is a closure over those that came before.
      have hg : Yields globals ((x, a) :: env) (Expr.lams (y :: params) body) 0
          (.closure params' body' ((x, a) :: env)) := by
        intro limit made _
        rw [hlams, eval]
        rfl
      apply InTurn.more (List.cons_ne_nil b args) (callYields_of_enter hr hg)
      apply ih (Nat.succ.inj hl) hlams
      simpa using hb
  | case2 params body hn =>
    cases hlams
    have hone : args.length ≤ 1 := hl ▸ Expr.length_le_one hn
    have hr : (Value.closure params body env).react args =
        .ok (.enter body ((params.zip args).reverse ++ env)) := if_pos hl
    exact .last hone (callYields_of_enter hr hb)

/-- A native gives a value, with no arguments left over, while it waits for more of them or when it
has them all. -/
theorem react_native_eq_yield_iff {f : Native ν} {received args : List (Value ν)} {v : Value ν} :
    (Value.native f received).react args = .ok (.yield v []) ↔
      args ≠ [] ∧ ((received ++ args).length < f.arity ∧ v = .native f (received ++ args) ∨
        (received ++ args).length = f.arity ∧ f.run (received ++ args) = .ok v) := by
  simp only [Value.react]
  split
  · next he => simp [List.isEmpty_iff.mp he]
  next he =>
  have hne : args ≠ [] := fun h => he (List.isEmpty_iff.mpr h)
  split
  · next hlt =>
    constructor
    · intro h
      cases h
      exact ⟨hne, .inl ⟨hlt, rfl⟩⟩
    · rintro ⟨-, ⟨-, rfl⟩ | ⟨hl, -⟩⟩
      · rfl
      · exact absurd hl (Nat.ne_of_lt hlt)
  · next hge =>
    rw [except_bind_eq_ok_iff]
    constructor
    · rintro ⟨u, hu, h⟩
      injection h with h
      injection h with huv hd
      have hl : (received ++ args).length = f.arity := by
        have := List.drop_eq_nil_iff.mp hd
        omega
      rw [List.take_of_length_le (Nat.le_of_eq hl), huv] at hu
      exact ⟨hne, .inr ⟨hl, hu⟩⟩
    · rintro ⟨-, ⟨hlt, -⟩ | ⟨hl, hv⟩⟩
      · exact absurd hlt hge
      · rw [List.take_of_length_le (Nat.le_of_eq hl), List.drop_of_length_le (Nat.le_of_eq hl)]
        exact ⟨v, hv, rfl⟩

/-- A native that takes its arguments all at once takes them one at a time. -/
theorem inTurn_native {f : Native ν} {received args : List (Value ν)} {v : Value ν}
    (h : (Value.native f received).react args = .ok (.yield v [])) :
    InTurn globals (.native f received) args v := by
  induction args generalizing received with
  | nil => exact absurd rfl (react_native_eq_yield_iff.mp h).1
  | cons a args ih =>
    cases args with
    | nil => exact .last (Nat.le_refl 1) (callYields_of_yield h)
    | cons b args =>
      obtain ⟨-, hv⟩ := react_native_eq_yield_iff.mp h
      rw [List.append_cons received a (b :: args)] at hv
      have hlt : (received ++ [a]).length < f.arity := by
        rw [List.length_append] at hv
        simp only [List.length_cons] at hv
        omega
      have hpart := react_native_eq_yield_iff.mpr ⟨List.cons_ne_nil a [], .inl ⟨hlt, rfl⟩⟩
      have hne := List.cons_ne_nil b args
      apply InTurn.more hne (callYields_of_yield hpart)
      exact ih (react_native_eq_yield_iff.mpr ⟨hne, hv⟩)

def Curries : CodeRel := fun σ τ e e' => σ = τ ∧ e' = e.curry

def Simulated (globals : Env ν) (call : Caller ν) : Prop :=
  ∀ {f g args args' made v made'}, f.Related Curries g →
    List.Forall₂ (Value.Related Curries) args args' → call f args made = .ok (v, made') →
    ∃ w, v.Related Curries w ∧ InTurn globals g args' w

theorem name_curry {limit : Nat} {call : Caller ν} (hG : Env.SelfRelated Curries globals)
    {env env' : Env ν} (hnames : env.map Prod.fst = env'.map Prod.fst)
    (henv : Env.Related Curries env env') {x : String} {made made' : Nat} {v : Value ν}
    (h : eval ⟨globals, limit⟩ call env (.name x) made = .ok (v, made')) :
    ∃ w, v.Related Curries w ∧ Yields globals env' (.name x) 0 w := by
  rw [eval_name_apply] at h
  suffices hm : ∃ w, v.Related Curries w ∧ (env'.lookup x).or (globals.lookup x) = some w by
    obtain ⟨w, hvw, hw⟩ := hm
    refine ⟨w, hvw, ?_⟩
    intro limit made _
    rw [eval_name_apply, hw]
    rfl
  have hi : (env.map Prod.fst).idxOf? x = (env'.map Prod.fst).idxOf? x := by rw [hnames]
  rcases lookup_related henv hi with ⟨u, w, hu, hw, huw⟩ | ⟨hu, hw, -⟩
  · rw [hu] at h
    cases h
    exact ⟨w, huw, by rw [hw]; rfl⟩
  · rw [hu, Option.none_or] at h
    rw [hw, Option.none_or]
    cases hg : globals.lookup x with
    | none =>
      rw [hg] at h
      cases h
    | some u =>
      rw [hg] at h
      cases h
      exact ⟨v, hG x v hg, rfl⟩

mutual
/-- An expression that gives a value has a curried form that gives a related one. -/
theorem eval_curry {limit : Nat} {call : Caller ν} (hG : Env.SelfRelated Curries globals)
    (hcall : Simulated globals call) {env env' : Env ν}
    (hnames : env.map Prod.fst = env'.map Prod.fst) (henv : Env.Related Curries env env')
    (e : Expr) {made made' : Nat} {v : Value ν}
    (h : eval ⟨globals, limit⟩ call env e made = .ok (v, made')) :
    ∃ w, v.Related Curries w ∧ ∃ cost, Yields globals env' e.curry cost w := by
  match e with
  | .int n =>
    rw [eval] at h
    cases h
    refine ⟨.int n, .int n, 0, ?_⟩
    intro limit made _
    rw [Expr.curry, eval]
    rfl
  | .name x =>
    obtain ⟨w, hvw, hw⟩ := name_curry hG hnames henv h
    exact ⟨w, hvw, 0, hw⟩
  | .lam params body =>
    rw [eval] at h
    cases h
    obtain ⟨params', body', hlams⟩ := Expr.exists_lams_eq_lam params body.curry
    have hcode : Curries (env.map Prod.fst) (env'.map Prod.fst) (.lam params body)
        (.lam params' body') := ⟨hnames, by rw [Expr.curry, hlams]⟩
    refine ⟨.closure params' body' env', .closure hcode henv, 0, ?_⟩
    intro limit made _
    rw [Expr.curry, hlams, eval]
    rfl
  | .call callee as =>
    rw [eval_call_apply] at h
    obtain ⟨⟨f, made₁⟩, hf, h⟩ := except_bind_eq_ok_iff.mp h
    obtain ⟨⟨args, made₂⟩, hargs, h⟩ := except_bind_eq_ok_iff.mp h
    obtain ⟨g, hfg, m, hg⟩ := eval_curry hG hcall hnames henv callee hf
    obtain ⟨args', has, hys⟩ := evalAll_curry hG hcall hnames henv as hargs
    obtain ⟨w, hvw, hturn⟩ := hcall hfg has h
    -- Here all arguments have values before the call, there each has one before its own call.
    rw [Expr.curry]
    exact ⟨w, hvw, hturn.yields_calls hg hys⟩
theorem evalAll_curry {limit : Nat} {call : Caller ν} (hG : Env.SelfRelated Curries globals)
    (hcall : Simulated globals call) {env env' : Env ν}
    (hnames : env.map Prod.fst = env'.map Prod.fst) (henv : Env.Related Curries env env')
    (as : List Expr) {made made' : Nat} {vs : List (Value ν)}
    (h : evalAll ⟨globals, limit⟩ call env as made = .ok (vs, made')) :
    ∃ ws, List.Forall₂ (Value.Related Curries) vs ws ∧
      List.Forall₂ (fun a w => ∃ cost, Yields globals env' a cost w) (Expr.curryAll as) ws := by
  match as with
  | [] =>
    rw [evalAll_nil_apply] at h
    cases h
    exact ⟨[], .nil, .nil⟩
  | a :: as =>
    rw [evalAll_cons_apply] at h
    obtain ⟨⟨v, made₁⟩, ha, h⟩ := except_bind_eq_ok_iff.mp h
    obtain ⟨⟨vs, made₂⟩, has, h⟩ := except_bind_eq_ok_iff.mp h
    cases h
    obtain ⟨w, hvw, hw⟩ := eval_curry hG hcall hnames henv a ha
    obtain ⟨ws, hvs, hws⟩ := evalAll_curry hG hcall hnames henv as has
    exact ⟨w :: ws, .cons hvw hvs, .cons hw hws⟩
end

/-- A built-in function that is called with all arguments at once and gives a value in the end is
followed. Nothing is ever left over for its value, an integer. -/
theorem builtin_simulated {I : Interpreter ν} {call : Caller ν} (hcall : Simulated globals call)
    {f : Builtin} {received received' args args' : List (Value ν)}
    (hreceived : List.Forall₂ (Value.Related Curries) received received')
    (hargs : List.Forall₂ (Value.Related Curries) args args') {reaction : Reaction ν}
    (hr : (Value.native (.builtin f) received).react args = .ok reaction) {made made' : Nat}
    {v : Value ν} (h : follow I call made reaction = .ok (v, made')) :
    ∃ w, v.Related Curries w ∧ InTurn globals (.native (.builtin f) received') args' w := by
  have hall : List.Forall₂ (Value.Related Curries) (received ++ args) (received' ++ args') :=
    List.rel_append hreceived hargs
  have hlen := hall.length_eq
  simp only [Value.react] at hr
  split at hr
  · cases hr
  next he =>
  have hne : args' ≠ [] := by
    rintro rfl
    cases hargs
    exact he rfl
  split at hr
  · next hlt =>
    cases hr
    cases h
    refine ⟨.native (.builtin f) (received' ++ args'), .native f hall, ?_⟩
    apply inTurn_native
    exact react_native_eq_yield_iff.mpr ⟨hne, .inl ⟨hlen ▸ hlt, rfl⟩⟩
  · next hge =>
    obtain ⟨u, hu, hr⟩ := except_bind_eq_ok_iff.mp hr
    cases hr
    obtain ⟨n, rfl, hn⟩ := Builtin.run_of_related (List.forall₂_take _ hall) hu
    have hrest := List.forall₂_drop (Native.builtin f : Native ν).arity hall
    cases hd : (received ++ args).drop (Native.builtin f : Native ν).arity with
    | nil =>
      rw [hd] at h
      cases h
      have hl : (received' ++ args').length = (Native.builtin f : Native ν).arity := by
        have := List.drop_eq_nil_iff.mp hd
        omega
      rw [List.take_of_length_le (Nat.le_of_eq hl)] at hn
      refine ⟨.int n, .int n, ?_⟩
      apply inTurn_native
      exact react_native_eq_yield_iff.mpr ⟨hne, .inr ⟨hl, hn⟩⟩
    | cons a as =>
      rw [hd] at h hrest
      obtain ⟨w, -, hturn⟩ := hcall (.int n) hrest h
      exact absurd hturn not_inTurn_int

/-- One call is followed if the calls inside it are. -/
theorem simulated_callOnce {limit : Nat} {call : Caller ν} (hG : Env.SelfRelated Curries globals)
    (hcall : Simulated globals call) : Simulated globals (callOnce ⟨globals, limit⟩ call) := by
  intro f g args args' made v made' hfg hargs h
  rw [callOnce_apply] at h
  split at h
  · cases h
  obtain ⟨reaction, hr, hv⟩ := except_bind_eq_ok_iff.mp h
  cases hfg with
  | int n => cases hr
  | native f hreceived => exact builtin_simulated hcall hreceived hargs hr hv
  | @closure params params' body body' env env' hcode henv =>
    simp only [Value.react] at hr
    split at hr
    · next hp =>
      cases hr
      have hp' := hp.trans hargs.length_eq
      have hnames : ((params.zip args).reverse ++ env).map Prod.fst =
          ((params.zip args').reverse ++ env').map Prod.fst := by
        rw [fst_bind hp, fst_bind hp', hcode.1]
      have henv' := bind_related hp hp' hargs henv
      obtain ⟨w, hvw, cost, hw⟩ := eval_curry hG hcall hnames henv' body hv
      exact ⟨w, hvw, inTurn_closure hp' hcode.2.symm hw⟩
    · cases hr

theorem simulated_callWithin (hG : Env.SelfRelated Curries globals) (limit depth : Nat) :
    Simulated globals (callWithin ⟨globals, limit⟩ depth) := by
  induction depth with
  | zero =>
    intro f g args args' made v made' _ _ h
    cases h
  | succ depth ih => exact simulated_callOnce hG ih

end

/-- The curried form of an expression gives the same integer, under every limit from some point on.
-/
theorem evaluate_curry {globals : Env ν} (hG : ∀ binding ∈ globals, binding.2.Ground) {e : Expr}
    {limit : Nat} {n : Int64} (h : Interpreter.evaluate ⟨globals, limit⟩ e = .ok (.int n)) :
    ∃ least, ∀ limit ≥ least, Interpreter.evaluate ⟨globals, limit⟩ e.curry = .ok (.int n) := by
  have hself : Env.SelfRelated Curries globals :=
    Env.selfRelated_of_forall fun binding hb => (hG binding hb).related Curries
  have hnil : Env.Related Curries ([] : Env ν) [] := .nil
  have hcall : Simulated globals (Direct.call ⟨globals, limit⟩) :=
    simulated_callWithin hself limit limit
  rw [Direct.evaluate_eq] at h
  obtain ⟨⟨v, made⟩, hv, hn⟩ := except_bind_eq_ok_iff.mp h
  cases hn
  obtain ⟨w, hvw, cost, hw⟩ := eval_curry hself hcall rfl hnil e hv
  cases hvw
  refine ⟨cost, ?_⟩
  intro limit hl
  rw [Direct.evaluate_eq, hw limit 0 (by omega)]
  rfl

/-- The expression that a canonical term is read back as differs from the curried form in the names
of parameters only. -/
theorem evaluate_toExpr_of_curry {globals : Env ν} (hG : ∀ binding ∈ globals, binding.2.Ground)
    {e tree : Expr} {c : Canonical} (hc : Canonical.ofExpr .keep e = .ok c)
    (ht : c.term.toExpr = .ok tree) {limit : Nat} {n : Int64}
    (h : Interpreter.evaluate ⟨globals, limit⟩ e.curry = .ok (.int n)) :
    Interpreter.evaluate ⟨globals, limit⟩ tree = .ok (.int n) := by
  obtain ⟨htree, m, hm, hm'⟩ := Canonical.nameless?_toExpr hc ht
  have hcurry := Expr.isCurried_curry (Canonical.ofExpr_eq_ok_iff.mp hc).1
  have halpha := Expr.alpha_of_nameless? hcurry htree ((Expr.nameless?_curry [] e).trans hm) hm'
  have hmatch := evaluate_related ⟨globals, limit⟩ (fun b hb => (hG b hb).plain) halpha
  rw [h] at hmatch
  generalize Interpreter.evaluate ⟨globals, limit⟩ tree = outcome at hmatch ⊢
  cases hmatch with
  | ok hvw =>
    cases hvw
    rfl

/-- What an expression gives as an integer, its canonical term, read back, gives too, under every
call limit from some point on, as long as the globals are integers and built-in functions. -/
theorem evaluate_readBack_eq_int {globals : Env ν} (hG : ∀ binding ∈ globals, binding.2.Ground)
    {e tree : Expr} {c : Canonical} (hc : Canonical.ofExpr .keep e = .ok c)
    (ht : c.term.toExpr = .ok tree) {limit : UInt64} {n : Int64}
    (h : Evaluator.evaluate ⟨globals, limit⟩ e = some (.ok (.int n))) :
    ∃ least : UInt64, ∀ limit ≥ least,
      Evaluator.evaluate ⟨globals, limit⟩ tree = some (.ok (.int n)) := by
  obtain ⟨limit, hlimit⟩ := Evaluator.exists_evaluate_interpreter h
  obtain ⟨least, hleast⟩ := evaluate_curry hG hlimit
  exact Evaluator.exists_least_evaluate
    (evaluate_toExpr_of_curry hG hc ht (hleast least (Nat.le_refl least)))

/-- A function of three parameters that adds the last one twice: three calls become seven. -/
theorem evaluate_three_parameters_eq_int :
    let globals : Env Stock := ("two", .int 2) :: ("three", .int 3) :: Interpreter.builtins
    Evaluator.evaluate ⟨globals, 3⟩ (.call (.lam ["f", "x", "y"] (.call (.name "f")
        [.call (.name "f") [.name "x", .name "y"], .name "y"]))
        [.name "add", .name "two", .name "three"]) = some (.ok (.int 8)) ∧
      ∃ least : UInt64, ∀ limit ≥ least, Evaluator.evaluate ⟨globals, limit⟩
        (.call (.call (.call (.lam ["x0"] (.lam ["x1"] (.lam ["x2"] (.call (.call (.name "x0")
          [.call (.call (.name "x0") [.name "x1"]) [.name "x2"]]) [.name "x2"]))))
          [.name "add"]) [.name "two"]) [.name "three"]) = some (.ok (.int 8)) := by
  intro globals
  have hG : ∀ binding ∈ globals, binding.2.Ground := by
    intro binding hb
    rcases List.mem_cons.mp hb with rfl | hb
    · exact .int 2
    rcases List.mem_cons.mp hb with rfl | hb
    · exact .int 3
    · exact Interpreter.ground_builtins binding hb
  have hc : Canonical.ofExpr .keep (.call (.lam ["f", "x", "y"] (.call (.name "f")
      [.call (.name "f") [.name "x", .name "y"], .name "y"]))
      [.name "add", .name "two", .name "three"]) =
      .ok ⟨.app (.app (.app (.abs ⟨0⟩ (.abs ⟨1⟩ (.abs ⟨2⟩ (.app (.app (.var ⟨0⟩)
        (.app (.app (.var ⟨0⟩) (.var ⟨1⟩)) (.var ⟨2⟩))) (.var ⟨2⟩)))))
        (.free "add")) (.free "two")) (.free "three"), 3⟩ := rfl
  have h : Evaluator.evaluate ⟨globals, 3⟩ (.call (.lam ["f", "x", "y"] (.call (.name "f")
      [.call (.name "f") [.name "x", .name "y"], .name "y"]))
      [.name "add", .name "two", .name "three"]) = some (.ok (.int 8)) := by
    rw [Evaluator.evaluate_eq (by decide), Direct.evaluate_eq]
    rfl
  exact ⟨h, evaluate_readBack_eq_int hG hc rfl h⟩

end Curried
