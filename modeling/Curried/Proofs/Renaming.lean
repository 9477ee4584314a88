import Curried.Proofs.Direct
import Curried.Proofs.ReadBack
import Curried.Proofs.Related
import Curried.Value

/-!
Evaluation up to the names of parameters. Expressions with the same binding structure are evaluated
in lockstep: call by call, to values with the same binding structure or to errors that differ at
most in how they show a function. A curried expression and its canonical term, read back, are a
case.
-/

namespace Curried

mutual
inductive Alpha : List String → List String → Expr → Expr → Prop
  | name {σ τ : List String} {x y : String} : σ.idxOf? x = τ.idxOf? y →
      (σ.idxOf? x = none → x = y) → Alpha σ τ (.name x) (.name y)
  | int {σ τ : List String} (n : Int64) : Alpha σ τ (.int n) (.int n)
  | lam {σ τ params params' : List String} {body body' : Expr} : params.length = params'.length →
      Alpha (params.reverse ++ σ) (params'.reverse ++ τ) body body' →
      Alpha σ τ (.lam params body) (.lam params' body')
  | call {σ τ : List String} {callee callee' : Expr} {args args' : List Expr} :
      Alpha σ τ callee callee' → AlphaAll σ τ args args' →
      Alpha σ τ (.call callee args) (.call callee' args')
inductive AlphaAll : List String → List String → List Expr → List Expr → Prop
  | nil {σ τ : List String} : AlphaAll σ τ [] []
  | cons {σ τ : List String} {a a' : Expr} {as as' : List Expr} :
      Alpha σ τ a a' → AlphaAll σ τ as as' → AlphaAll σ τ (a :: as) (a' :: as')
end

mutual
theorem alpha_refl (σ : List String) (e : Expr) : Alpha σ σ e e := by
  match e with
  | .name x => exact .name rfl fun _ => rfl
  | .int n => exact .int n
  | .lam params body => exact .lam rfl (alpha_refl _ body)
  | .call callee args => exact .call (alpha_refl σ callee) (alphaAll_refl σ args)
theorem alphaAll_refl (σ : List String) (as : List Expr) : AlphaAll σ σ as as := by
  match as with
  | [] => exact .nil
  | a :: as => exact .cons (alpha_refl σ a) (alphaAll_refl σ as)
end

inductive ShownAlike : String → String → Prop
  | same (text : String) : ShownAlike text text
  | function {params params' : List String} : params.length = params'.length →
      ShownAlike ("<lambda " ++ commaSeparated params ++ ">")
        ("<lambda " ++ commaSeparated params' ++ ">")

/-- Errors of the same sort, with the same name, numbers and limit, that differ at most in the names
of a function's parameters. -/
inductive EvalError.Alike : EvalError → EvalError → Prop
  | unbound (name : String) : Alike (.unbound name) (.unbound name)
  | notCallable {value value' : String} : ShownAlike value value' →
      Alike (.notCallable value) (.notCallable value')
  | arity {callee callee' : String} (expected found : Nat) : ShownAlike callee callee' →
      Alike (.arity callee expected found) (.arity callee' expected found)
  | mismatch (expected : String) {found found' : String} : ShownAlike found found' →
      Alike (.mismatch expected found) (.mismatch expected found')
  | callLimit (limit : Nat) : Alike (.callLimit limit) (.callLimit limit)

/-- Outcomes that are both values, related by `S`, or both errors that are alike. -/
inductive Matching {α β : Type} (S : α → β → Prop) : Except EvalError α → Except EvalError β → Prop
  | ok {a : α} {b : β} : S a b → Matching S (.ok a) (.ok b)
  | error {err err' : EvalError} : err.Alike err' → Matching S (.error err) (.error err')

theorem Matching.bind {α β γ δ : Type} {S : α → β → Prop} {T : γ → δ → Prop}
    {x : Except EvalError α} {y : Except EvalError β} {f : α → Except EvalError γ}
    {g : β → Except EvalError δ} (h : Matching S x y)
    (hfg : ∀ a b, S a b → Matching T (f a) (g b)) : Matching T (x >>= f) (y >>= g) := by
  cases h with
  | ok hab => exact hfg _ _ hab
  | error he => exact .error he

theorem Matching.imp {α β : Type} {S T : α → β → Prop} {x : Except EvalError α}
    {y : Except EvalError β} (h : Matching S x y) (hST : ∀ a b, S a b → T a b) :
    Matching T x y := by
  cases h with
  | ok hab => exact .ok (hST _ _ hab)
  | error he => exact .error he

variable {ν : Type}

def Paced {α β : Type} (S : α → β → Prop) (p : α × Nat) (q : β × Nat) : Prop :=
  S p.1 q.1 ∧ p.2 = q.2

section

variable [Signature ν]

theorem Value.Related.shownAlike {v w : Value ν} (h : v.Related Alpha w) :
    ShownAlike v.render w.render := by
  cases h with
  | int n => exact .same _
  | closure hcode _ =>
    cases hcode with
    | lam hl _ => exact .function hl
  | native f hr =>
    cases hr with
    | nil => exact .same _
    | cons _ hr =>
      have hl := hr.length_eq
      simp only [Value.render, List.length_cons, hl]
      exact .same _

theorem Value.Related.toInt {v w : Value ν} (h : v.Related Alpha w) :
    Matching (· = ·) v.toInt w.toInt := by
  have hs := h.shownAlike
  cases h with
  | int n => exact .ok rfl
  | closure _ _ | native _ _ => exact .error (.mismatch "integer" hs)

theorem mapM_toInt_related {args args' : List (Value ν)}
    (h : List.Forall₂ (Value.Related Alpha) args args') :
    Matching (· = ·) (args.mapM Value.toInt) (args'.mapM Value.toInt) := by
  induction h with
  | nil => exact .ok rfl
  | cons hv _ ih =>
    rw [List.mapM_cons, List.mapM_cons]
    apply hv.toInt.bind
    rintro m _ rfl
    apply ih.bind
    rintro ns _ rfl
    exact .ok rfl

theorem Builtin.run_related (f : Builtin) {args args' : List (Value ν)}
    (h : List.Forall₂ (Value.Related Alpha) args args') :
    Matching (Value.Related Alpha) (f.run args) (f.run args') := by
  rw [Builtin.run_eq, Builtin.run_eq, h.length_eq]
  split
  · apply (mapM_toInt_related h).bind
    rintro ns _ rfl
    exact .ok (.int _)
  · exact .error (.arity _ _ (.same _))

end

inductive Reaction.Related : Reaction ν → Reaction ν → Prop
  | enter {body body' : Expr} {env env' : Env ν} :
      Alpha (env.map Prod.fst) (env'.map Prod.fst) body body' → Env.Related Alpha env env' →
      Related (.enter body env) (.enter body' env')
  | yield {v w : Value ν} {rest rest' : List (Value ν)} : v.Related Alpha w →
      List.Forall₂ (Value.Related Alpha) rest rest' → Related (.yield v rest) (.yield w rest')

section

variable [Host ν]

theorem Value.Related.react {f g : Value ν} (h : f.Related Alpha g) {args args' : List (Value ν)}
    (ha : List.Forall₂ (Value.Related Alpha) args args') :
    Matching Reaction.Related (f.react args) (g.react args') := by
  have hs := h.shownAlike
  have hlen := ha.length_eq
  cases h with
  | int n => exact .error (.notCallable hs)
  | closure hcode henv =>
    obtain ⟨hl, hbody⟩ : _ ∧ _ := by
      cases hcode with
      | lam hl hbody => exact ⟨hl, hbody⟩
    simp only [Value.react]
    split
    · next hp =>
      have hp' := hl.symm.trans (hp.trans hlen)
      rw [if_pos hp']
      refine .ok (.enter ?_ (bind_related hp hp' ha henv))
      rw [fst_bind hp, fst_bind hp']
      exact hbody
    · next hp =>
      rw [if_neg (by omega), ← hl, ← hlen]
      exact .error (.arity _ _ hs)
  | native f hr =>
    have hall := List.rel_append hr ha
    have hempty : args.isEmpty = args'.isEmpty := by
      cases ha <;> rfl
    simp only [Value.react, ← hempty, ← hall.length_eq, ← hr.length_eq]
    split
    · exact .error (.arity _ _ hs)
    split
    · exact .ok (.yield (.native f hall) .nil)
    · have hrun := f.run_related (List.forall₂_take (Native.builtin f : Native ν).arity hall)
      apply hrun.bind
      intro v w hvw
      exact .ok (.yield hvw (List.forall₂_drop _ hall))

def Lockstep (call : Direct.Caller ν) : Prop :=
  ∀ {f g args args'}, f.Related Alpha g → List.Forall₂ (Value.Related Alpha) args args' →
    ∀ made, Matching (Paced (Value.Related Alpha)) (call f args made) (call g args' made)

end

section

open Direct

variable {I : Interpreter ν}

theorem eval_name_related (hI : Env.SelfRelated Alpha I.globals) (call : Caller ν)
    {env env' : Env ν}
    (henv : Env.Related Alpha env env') {x y : String}
    (hxy : (env.map Prod.fst).idxOf? x = (env'.map Prod.fst).idxOf? y)
    (hfree : (env.map Prod.fst).idxOf? x = none → x = y) (made : Nat) :
    Matching (Paced (Value.Related Alpha)) (eval I call env (.name x) made)
      (eval I call env' (.name y) made) := by
  rw [eval_name_apply, eval_name_apply]
  rcases lookup_related henv hxy with ⟨v, w, hv, hw, hvw⟩ | ⟨hx, hy, hi⟩
  · rw [hv, hw]
    exact .ok ⟨hvw, rfl⟩
  · -- A free name is the same on both sides and means the same global.
    obtain rfl : x = y := hfree hi
    rw [hx, hy, Option.none_or]
    cases hg : I.globals.lookup x with
    | none => exact .error (.unbound x)
    | some v => exact .ok ⟨hI x v hg, rfl⟩

mutual
/-- Related expressions in related environments are evaluated in lockstep, if calls are. -/
theorem eval_related (hI : Env.SelfRelated Alpha I.globals) {call : Caller ν}
    (hcall : Lockstep call) {env env' : Env ν} (henv : Env.Related Alpha env env')
    {σ τ : List String} (hσ : env.map Prod.fst = σ) (hτ : env'.map Prod.fst = τ) {e e' : Expr}
    (h : Alpha σ τ e e') (made : Nat) :
    Matching (Paced (Value.Related Alpha)) (eval I call env e made) (eval I call env' e' made) := by
  match h with
  | .name hxy hfree =>
    subst hσ hτ
    exact eval_name_related hI call henv hxy hfree made
  | .int n =>
    rw [eval, eval]
    exact .ok ⟨.int n, rfl⟩
  | .lam hl hbody =>
    subst hσ hτ
    rw [eval, eval]
    exact .ok ⟨.closure (.lam hl hbody) henv, rfl⟩
  | .call hf hargs =>
    rw [eval_call_apply, eval_call_apply]
    apply (eval_related hI hcall henv hσ hτ hf made).bind
    rintro ⟨f, made₁⟩ ⟨g, _⟩ ⟨hfg, rfl⟩
    apply (evalAll_related hI hcall henv hσ hτ hargs made₁).bind
    rintro ⟨args, made₂⟩ ⟨args', _⟩ ⟨has, rfl⟩
    exact hcall hfg has made₂
theorem evalAll_related (hI : Env.SelfRelated Alpha I.globals) {call : Caller ν}
    (hcall : Lockstep call) {env env' : Env ν} (henv : Env.Related Alpha env env')
    {σ τ : List String} (hσ : env.map Prod.fst = σ) (hτ : env'.map Prod.fst = τ)
    {as as' : List Expr} (h : AlphaAll σ τ as as') (made : Nat) :
    Matching (Paced (List.Forall₂ (Value.Related Alpha))) (evalAll I call env as made)
      (evalAll I call env' as' made) := by
  match h with
  | .nil =>
    rw [evalAll_nil_apply, evalAll_nil_apply]
    exact .ok ⟨.nil, rfl⟩
  | .cons ha has =>
    rw [evalAll_cons_apply, evalAll_cons_apply]
    apply (eval_related hI hcall henv hσ hτ ha made).bind
    rintro ⟨v, made₁⟩ ⟨w, _⟩ ⟨hvw, rfl⟩
    apply (evalAll_related hI hcall henv hσ hτ has made₁).bind
    rintro ⟨vs, made₂⟩ ⟨ws, _⟩ ⟨hvs, rfl⟩
    exact .ok ⟨.cons hvw hvs, rfl⟩
end

variable [Host ν]

/-- One call is in lockstep if the calls inside it are. -/
theorem lockstep_callOnce (hI : Env.SelfRelated Alpha I.globals) {call : Caller ν}
    (hcall : Lockstep call) : Lockstep (callOnce I call) := by
  intro f g args args' hfg hargs made
  rw [callOnce_apply, callOnce_apply]
  split
  · exact .error (.callLimit I.limit)
  · apply (hfg.react hargs).bind
    intro r r' hr
    cases hr with
    | enter hbody henv => exact eval_related hI hcall henv rfl rfl hbody (made + 1)
    | yield hvw hrest =>
      cases hrest with
      | nil => exact .ok ⟨hvw, rfl⟩
      | cons ha has => exact hcall hvw (.cons ha has) (made + 1)

theorem lockstep_callWithin (hI : Env.SelfRelated Alpha I.globals) (depth : Nat) :
    Lockstep (callWithin I depth) := by
  induction depth with
  | zero => exact fun _ _ _ => .error (.callLimit I.limit)
  | succ depth ih => exact lockstep_callOnce hI ih

end

/-- Alpha-equivalent expressions have matching outcomes, whatever the call limit. -/
theorem evaluate_related [Host ν] (I : Interpreter ν) (hI : ∀ binding ∈ I.globals, binding.2.Plain)
    {e e' : Expr} (h : Alpha [] [] e e') :
    Matching (Value.Related Alpha) (I.evaluate e) (I.evaluate e') := by
  have hG : Env.SelfRelated Alpha I.globals :=
    Env.selfRelated_of_forall fun binding hb => (hI binding hb).related alpha_refl
  have hnil : Env.Related Alpha ([] : Env ν) [] := .nil
  have hm := eval_related hG (lockstep_callWithin hG I.limit) hnil rfl rfl h 0
  rw [Direct.evaluate_eq, Direct.evaluate_eq]
  exact hm.bind fun _ _ hvw => .ok hvw.1

namespace Expr

/-- What a curried expression is made of, by its nameless form. -/
theorem curried_of_nameless? {σ : List String} {e : Expr} {m : Nameless}
    (hc : e.isCurried = true) (h : e.nameless? σ = some m) :
    match m with
    | .bound i => ∃ x, e = .name x ∧ σ.idxOf? x = some i
    | .free x => e = .name x ∧ σ.idxOf? x = none
    | .abs B => ∃ x body, e = .lam [x] body ∧ body.isCurried = true ∧
        body.nameless? (x :: σ) = some B
    | .app F A => ∃ f a, e = .call f [a] ∧ f.isCurried = true ∧ a.isCurried = true ∧
        f.nameless? σ = some F ∧ a.nameless? σ = some A := by
  match e with
  | .name x =>
    simp only [nameless?, Option.some.injEq] at h
    cases hx : σ.idxOf? x with
    | none =>
      rw [hx] at h
      subst h
      exact ⟨rfl, hx⟩
    | some i =>
      rw [hx] at h
      subst h
      exact ⟨x, rfl, hx⟩
  | .int n => cases h
  | .lam params body =>
    simp only [isCurried, Bool.and_eq_true, beq_iff_eq] at hc
    obtain ⟨x, rfl⟩ := List.length_eq_one_iff.mp hc.1
    simp only [nameless?] at h
    obtain ⟨B, hB, rfl⟩ := Option.map_eq_some_iff.mp h
    exact ⟨x, body, rfl, hc.2, hB⟩
  | .call callee args =>
    simp only [isCurried, Bool.and_eq_true, beq_iff_eq] at hc
    obtain ⟨⟨hl, hf⟩, ha⟩ := hc
    obtain ⟨a, rfl⟩ := List.length_eq_one_iff.mp hl
    simp only [areCurried, Bool.and_true] at ha
    simp only [nameless?] at h
    obtain ⟨F, hF, h⟩ := Option.bind_eq_some_iff.mp h
    simp only [namelessArgs?] at h
    obtain ⟨A, hA, h⟩ := Option.bind_eq_some_iff.mp h
    cases h
    exact ⟨callee, a, rfl, hf, ha, hF, hA⟩

/-- Curried expressions with the same nameless form are alpha-equivalent. -/
theorem alpha_of_nameless? {σ τ : List String} {e e' : Expr} {m : Nameless}
    (hc : e.isCurried = true) (hc' : e'.isCurried = true) (h : e.nameless? σ = some m)
    (h' : e'.nameless? τ = some m) : Alpha σ τ e e' := by
  induction m generalizing σ τ e e' with
  | bound i =>
    obtain ⟨x, rfl, hx⟩ := curried_of_nameless? hc h
    obtain ⟨y, rfl, hy⟩ := curried_of_nameless? hc' h'
    exact .name (hx.trans hy.symm) fun hn => by rw [hx] at hn; cases hn
  | free x =>
    obtain ⟨rfl, hx⟩ := curried_of_nameless? hc h
    obtain ⟨rfl, hy⟩ := curried_of_nameless? hc' h'
    exact .name (hx.trans hy.symm) fun _ => rfl
  | abs B ih =>
    obtain ⟨x, body, rfl, hb, hB⟩ := curried_of_nameless? hc h
    obtain ⟨y, body', rfl, hb', hB'⟩ := curried_of_nameless? hc' h'
    exact .lam rfl (ih hb hb' hB hB')
  | app F A ihf iha =>
    obtain ⟨f, a, rfl, hf, ha, hF, hA⟩ := curried_of_nameless? hc h
    obtain ⟨g, b, rfl, hg, hb, hG, hB⟩ := curried_of_nameless? hc' h'
    exact .call (ihf hf hg hF hG) (.cons (iha ha hb hA hB) .nil)

end Expr

/-- The expression of a canonical term is curried and has the nameless form of the expression that
the term came from. -/
theorem Canonical.nameless?_toExpr {policy : FreeNames} {e tree : Expr} {c : Canonical}
    (hc : ofExpr policy e = .ok c) (ht : c.term.toExpr = .ok tree) :
    tree.isCurried = true ∧ ∃ m, e.nameless? [] = some m ∧ tree.nameless? [] = some m := by
  have hsize := paramCount_le_of_toExpr hc ht
  obtain ⟨hr, -, rfl⟩ := Term.toExpr_eq_ok_iff.mp ht
  obtain ⟨m, hm, -, hcm⟩ := nameless?_term hsize hc
  refine ⟨c.term.isCurried_spell, m, hm, ?_⟩
  have hf := fun x (hx : x ∈ c.term.freeOccurrences) => (ofName?_of_mem_term hc hx).2
  exact (Term.nameless?_spell hr hf).trans hcm

inductive Value.Corresponds : Value ν → Value ν → Prop
  | int (n : Int64) : Corresponds (.int n) (.int n)
  | closure {params params' : List String} {body body' : Expr} {env env' : Env ν} :
      Corresponds (.closure params body env) (.closure params' body' env')
  | native (f : Native ν) {received received' : List (Value ν)} :
      received.length = received'.length →
      Corresponds (.native f received) (.native f received')

theorem Value.Related.corresponds {R : CodeRel} {v w : Value ν} (h : v.Related R w) :
    v.Corresponds w := by
  cases h with
  | int n => exact .int n
  | closure _ _ => exact .closure
  | native f hr => exact .native _ hr.length_eq

theorem Interpreter.ground_builtins :
    ∀ binding ∈ (builtins : Env ν), binding.2.Ground := by
  intro binding hb
  obtain ⟨f, -, rfl⟩ := List.mem_map.mp hb
  exact .native f (List.forall_mem_nil _)

/-- A curried expression and its canonical term, read back, have corresponding outcomes under every
call limit, as long as the globals hold no functions of a host. -/
theorem evaluate_readBack_matching [Host ν] (I : Interpreter ν)
    (hI : ∀ binding ∈ I.globals, binding.2.Plain) {e tree : Expr} {c : Canonical}
    (he : e.isCurried = true) (hc : Canonical.ofExpr .keep e = .ok c)
    (ht : c.term.toExpr = .ok tree) :
    Matching Value.Corresponds (I.evaluate e) (I.evaluate tree) := by
  obtain ⟨htree, m, hm, hm'⟩ := Canonical.nameless?_toExpr hc ht
  have h := evaluate_related I hI (Expr.alpha_of_nameless? he htree hm hm')
  exact h.imp fun _ _ => Value.Related.corresponds

/-- A shadowed parameter is shown under its own name or under that of its identifier when the
increment refuses the function. When the identity is called in its place, both give a function. -/
theorem evaluate_shadowed_parameter_matching :
    let I : Interpreter Stock := ⟨("k", .closure ["y"] (.name "y") []) :: Interpreter.builtins, 5⟩
    let e (callee : String) : Expr := .call (.call (.lam ["f"] (.lam ["x"] (.call (.name "f")
      [.lam ["x"] (.name "x")]))) [.name callee]) [.name "k"]
    let tree (callee : String) : Expr := .call (.call (.lam ["x0"] (.lam ["x1"]
      (.call (.name "x0") [.lam ["x2"] (.name "x2")]))) [.name callee]) [.name "k"]
    Matching Value.Corresponds (I.evaluate (e "inc")) (I.evaluate (tree "inc")) ∧
      I.evaluate (e "inc") = .error (.mismatch "integer" "<lambda x>") ∧
      I.evaluate (tree "inc") = .error (.mismatch "integer" "<lambda x2>") ∧
      Matching Value.Corresponds (I.evaluate (e "k")) (I.evaluate (tree "k")) ∧
      (I.evaluate (e "k")).map Value.render = .ok "<lambda x>" ∧
      (I.evaluate (tree "k")).map Value.render = .ok "<lambda x2>" := by
  intro I e tree
  have hc (callee : String) (h : callee = "inc" ∨ callee = "k") :
      Canonical.ofExpr .keep (e callee) =
        .ok ⟨.app (.app (.abs ⟨0⟩ (.abs ⟨1⟩ (.app (.var ⟨0⟩) (.abs ⟨2⟩ (.var ⟨2⟩)))))
          (.free callee)) (.free "k"), 3⟩ := by
    rcases h with rfl | rfl <;> decide +kernel
  have hk : (Value.closure ["y"] (.name "y") [] : Value Stock).Plain :=
    .closure _ _ (List.forall_mem_nil _)
  suffices hI : ∀ binding ∈ I.globals, binding.2.Plain by
    refine ⟨?_, by cbv, by cbv, ?_, by cbv, by cbv⟩
    · exact evaluate_readBack_matching I hI rfl (hc "inc" (.inl rfl)) rfl
    · exact evaluate_readBack_matching I hI rfl (hc "k" (.inr rfl)) rfl
  intro binding hb
  rcases List.mem_cons.mp hb with rfl | hb
  · exact hk
  · exact (Interpreter.ground_builtins binding hb).plain

end Curried
