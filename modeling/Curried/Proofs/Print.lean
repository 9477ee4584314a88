import Curried.Expr
import Curried.Proofs.Grammar
import Curried.Proofs.Scan

namespace Curried

def commaTokens : List (List Token) → List Token
  | [] => []
  | [ts] => ts
  | ts :: tss => ts ++ .comma :: commaTokens tss

namespace Expr

mutual
def names : Expr → List String
  | .name x => [x]
  | .int _ => []
  | .lam params body => params ++ body.names
  | .call callee args => callee.names ++ namesAll args
def namesAll : List Expr → List String
  | [] => []
  | a :: as => a.names ++ namesAll as
end

def paramTokens : List String → List Token
  | [x] => [.ident x]
  | xs => .openParen :: commaTokens (xs.map fun x => [.ident x]) ++ [.closeParen]

mutual
def tokens : Expr → List Token
  | .name x => [.ident x]
  | .int n => [.int n]
  | .lam params body => paramTokens params ++ .arrow :: body.tokens
  | .call callee args =>
    (if callee.isLam then .openParen :: callee.tokens ++ [.closeParen] else callee.tokens) ++
      .openParen :: commaTokens (tokensAll args) ++ [.closeParen]
def tokensAll : List Expr → List (List Token)
  | [] => []
  | a :: as => a.tokens :: tokensAll as
end

theorem tokensAll_eq_map (as : List Expr) : tokensAll as = as.map tokens := by
  induction as with
  | nil => simp [tokensAll]
  | cons a as ih => simp [tokensAll, ih]

end Expr

open Grammar Token

theorem reads_commaSeparated {α : Type} {f : α → String} {g : α → List Token} {as : List α}
    (h : ∀ a ∈ as, Reads (f a).toList (g a)) :
    Reads (commaSeparated (as.map f)).toList (commaTokens (as.map g)) := by
  induction as with
  | nil => exact Reads.nil
  | cons a as ih =>
    have ha := h a List.mem_cons_self
    cases as with
    | nil => exact ha
    | cons b bs =>
      have hb := ih fun c hc => h c (List.mem_cons_of_mem a hc)
      have hc : Reads (',' :: ' ' :: (commaSeparated ((b :: bs).map f)).toList)
          (.comma :: commaTokens ((b :: bs).map g)) := .mark rfl hb.space
      simpa [commaSeparated, commaTokens] using ha.append (.cons rfl _) hc

/-- Parentheses around a text. -/
theorem Token.Reads.paren {cs : List Char} {ts : List Token} (h : Reads cs ts) :
    Reads ('(' :: cs ++ [')']) (.openParen :: ts ++ [.closeParen]) :=
  .mark rfl (h.append (.cons rfl _) (.mark rfl .nil))

theorem reads_renderParams {xs : List String} (h : ∀ x ∈ xs, isIdentifier x = true) :
    Reads (Expr.renderParams xs).toList (Expr.paramTokens xs) := by
  have hs : Reads (commaSeparated xs).toList (commaTokens (xs.map fun x => [.ident x])) := by
    simpa using reads_commaSeparated (fun x hx => reads_ident (h x hx)) (f := id)
  match xs with
  | [x] => exact hs
  | [] | _ :: _ :: _ => simpa [Expr.renderParams, Expr.paramTokens] using hs.paren

mutual
/-- An expression prints as its tokens. -/
theorem reads_render (e : Expr) (h : ∀ x ∈ e.names, isIdentifier x = true) :
    Reads e.render.toList e.tokens := by
  match e with
  | .name x => exact reads_ident (h x (by simp [Expr.names]))
  | .int n => exact reads_int n
  | .lam params body =>
    have hp : Reads (Expr.renderParams params).toList (Expr.paramTokens params) :=
      reads_renderParams fun x hx => h x (by simp [Expr.names, hx])
    have hb := reads_render body fun x hx => h x (by simp [Expr.names, hx])
    simpa [Expr.render, Expr.tokens] using hp.append (.cons rfl _) hb.space.arrow.space
  | .call callee args =>
    have hf := reads_render callee fun x hx => h x (by simp [Expr.names, hx])
    have ha := reads_renderAll args fun x hx => h x (by simp [Expr.names, hx])
    have hargs := (reads_commaSeparated ha).paren
    rw [← Expr.renderAll_eq_map, ← Expr.tokensAll_eq_map] at hargs
    cases hl : callee.isLam with
    | true => simpa [Expr.render, Expr.tokens, hl] using hf.paren.append (.cons rfl _) hargs
    | false => simpa [Expr.render, Expr.tokens, hl] using hf.append (.cons rfl _) hargs
theorem reads_renderAll (as : List Expr) (h : ∀ x ∈ Expr.namesAll as, isIdentifier x = true) :
    ∀ a ∈ as, Reads a.render.toList a.tokens := by
  match as with
  | [] => nofun
  | a :: as =>
    have ha := reads_render a fun x hx => h x (by simp [Expr.namesAll, hx])
    have has := reads_renderAll as fun x hx => h x (by simp [Expr.namesAll, hx])
    intro b hb
    rcases List.mem_cons.mp hb with rfl | hb
    · exact ha
    · exact has b hb
end

theorem params_commaTokens {x : String} {xs : List String} :
    Params (commaTokens ((x :: xs).map fun x => [.ident x])) (x :: xs) := by
  induction xs generalizing x with
  | nil => exact .one x
  | cons y ys ih => exact .more x ih

theorem paramList_commaTokens (xs : List String) :
    ParamList (commaTokens (xs.map fun x => [.ident x])) xs := by
  cases xs with
  | nil => exact .empty
  | cons x xs => exact .names params_commaTokens

theorem isExpr_lam (params : List String) {ts : List Token} {b : Expr} (h : IsExpr ts b) :
    IsExpr (Expr.paramTokens params ++ .arrow :: ts) (.lam params b) := by
  match params with
  | [x] => exact .arrow x h
  | [] => exact .arrows .empty h
  | x :: y :: xs =>
    have hp := paramList_commaTokens (x :: y :: xs)
    simpa [Expr.paramTokens] using IsExpr.arrows hp h

theorem isArgList_commaTokens {as : List Expr} (h : ∀ a ∈ as, IsExpr a.tokens a) :
    IsArgList (commaTokens (Expr.tokensAll as)) as := by
  have hn {a : Expr} {as : List Expr} (h : ∀ b ∈ a :: as, IsExpr b.tokens b) :
      IsArgs (commaTokens (Expr.tokensAll (a :: as))) (a :: as) := by
    induction as generalizing a with
    | nil => exact .one (h a List.mem_cons_self)
    | cons b bs ih =>
      exact .more (h a List.mem_cons_self) (ih fun c hc => h c (List.mem_cons_of_mem a hc))
  cases as with
  | nil => exact .empty
  | cons a as => exact .args (hn h)

-- A callee that is not a function literal is printed without parentheses, so for it the derivation
-- has to be that of a chain of calls.
mutual
theorem isExpr_tokens (e : Expr) :
    IsExpr e.tokens e ∧ (e.isLam = false → IsCalls e.tokens e) := by
  match e with
  | .name x => exact ⟨.calls (.atom (.name x)), fun _ => .atom (.name x)⟩
  | .int n => exact ⟨.calls (.atom (.int n)), fun _ => .atom (.int n)⟩
  | .lam params body => exact ⟨isExpr_lam params (isExpr_tokens body).1, nofun⟩
  | .call callee args =>
    have hargs := isArgList_commaTokens (isExpr_tokensAll args)
    have hf := isExpr_tokens callee
    have hc : IsCalls (Expr.call callee args).tokens (.call callee args) := by
      cases hl : callee.isLam with
      | true => simpa [Expr.tokens, hl] using IsCalls.call (.atom (.group hf.1)) hargs
      | false => simpa [Expr.tokens, hl] using IsCalls.call (hf.2 hl) hargs
    exact ⟨.calls hc, fun _ => hc⟩
theorem isExpr_tokensAll (as : List Expr) : ∀ a ∈ as, IsExpr a.tokens a := by
  match as with
  | [] => nofun
  | a :: as =>
    have ha := (isExpr_tokens a).1
    have has := isExpr_tokensAll as
    intro b hb
    rcases List.mem_cons.mp hb with rfl | hb
    · exact ha
    · exact has b hb
end

/-- The text of an expression is parsed as this expression. -/
theorem parse_render_of_names {e : Expr} (h : ∀ x ∈ e.names, isIdentifier x = true) :
    parse e.render = .ok e := by
  rw [parse, tokenize_of_reads (reads_render e h)]
  exact parseTokens_of_isExpr (isExpr_tokens e).1

theorem Grammar.Params.mem {ps : List Token} {xs : List String} (h : Params ps xs) {x : String}
    (hx : x ∈ xs) : .ident x ∈ ps := by
  induction h with
  | one y => simpa using hx
  | more y _ ih =>
    rcases List.mem_cons.mp hx with rfl | hx
    · exact List.mem_cons_self
    · exact List.mem_cons_of_mem _ (List.mem_cons_of_mem _ (ih hx))

theorem Grammar.ParamList.mem {ps : List Token} {xs : List String} (h : ParamList ps xs)
    {x : String} (hx : x ∈ xs) : .ident x ∈ ps := by
  cases h with
  | empty => cases hx
  | names h => exact h.mem hx

mutual
/-- Every name of a derived expression stands among its tokens. -/
theorem Grammar.IsExpr.mem {ts : List Token} {e : Expr} (h : IsExpr ts e) {x : String}
    (hx : x ∈ e.names) : .ident x ∈ ts := by
  match h with
  | .keyword hp hb | .arrows hp hb =>
    rcases List.mem_append.mp hx with hx | hx
    · simp [hp.mem hx]
    · simp [hb.mem hx]
  | .arrow y hb =>
    rcases List.mem_append.mp hx with hx | hx
    · simp [List.mem_singleton.mp hx]
    · simp [hb.mem hx]
  | .calls hc => exact hc.mem hx
theorem Grammar.IsCalls.mem {ts : List Token} {e : Expr} (h : IsCalls ts e) {x : String}
    (hx : x ∈ e.names) : .ident x ∈ ts := by
  match h with
  | .atom ha => exact ha.mem hx
  | .call hf ha =>
    rcases List.mem_append.mp hx with hx | hx
    · simp [hf.mem hx]
    · simp [ha.mem hx]
theorem Grammar.IsArgList.mem {ts : List Token} {es : List Expr} (h : IsArgList ts es) {x : String}
    (hx : x ∈ Expr.namesAll es) : .ident x ∈ ts := by
  match h with
  | .empty => cases hx
  | .args ha => exact ha.mem hx
theorem Grammar.IsArgs.mem {ts : List Token} {es : List Expr} (h : IsArgs ts es) {x : String}
    (hx : x ∈ Expr.namesAll es) : .ident x ∈ ts := by
  match h with
  | .one he =>
    have hx' := hx
    simp only [Expr.namesAll, List.append_nil] at hx'
    exact he.mem hx'
  | .more he hes =>
    rcases List.mem_append.mp hx with hx | hx
    · simp [he.mem hx]
    · simp [hes.mem hx]
theorem Grammar.IsAtom.mem {ts : List Token} {e : Expr} (h : IsAtom ts e) {x : String}
    (hx : x ∈ e.names) : .ident x ∈ ts := by
  match h with
  | .name y => simpa using List.mem_singleton.mp hx
  | .int n => cases hx
  | .group he => simp [he.mem hx]
end

/-- Parsing gives no names but identifiers. -/
theorem isIdentifier_of_parse {text : String} {e : Expr} (h : parse text = .ok e) :
    ∀ x ∈ e.names, isIdentifier x = true := by
  unfold parse at h
  split at h
  · cases h
  · next ts ht =>
    obtain ⟨us, rest, rfl, he, -⟩ := isExpr_of_parseTokens h
    intro x hx
    exact spelled_of_tokenize ht x (List.mem_append_left rest (he.mem hx))

/-- An expression comes back from its text exactly when all its names are identifiers. So it does
when it has been parsed from any text. -/
theorem parse_render_eq_ok_iff (e : Expr) :
    (parse e.render = .ok e ↔ ∀ x ∈ e.names, isIdentifier x = true) ∧
      ∀ text, parse text = .ok e → parse e.render = .ok e :=
  ⟨⟨isIdentifier_of_parse, parse_render_of_names⟩,
    fun _ h => parse_render_of_names (isIdentifier_of_parse h)⟩

/-- A function as callee, with a negative integer and a function of no parameters inside. -/
theorem parse_render_applied_function :
    parse "(lambda f, _y: f(-2, lambda: _y))()" =
      .ok (.call (.lam ["f", "_y"] (.call (.name "f") [.int (-2), .lam [] (.name "_y")])) []) ∧
    parse (Expr.call (.lam ["f", "_y"]
        (.call (.name "f") [.int (-2), .lam [] (.name "_y")])) []).render =
      .ok (.call (.lam ["f", "_y"] (.call (.name "f") [.int (-2), .lam [] (.name "_y")])) []) := by
  have h : parse "(lambda f, _y: f(-2, lambda: _y))()" =
      .ok (.call (.lam ["f", "_y"] (.call (.name "f") [.int (-2), .lam [] (.name "_y")])) []) := by
    decide +kernel
  exact ⟨h, (parse_render_eq_ok_iff _).2 _ h⟩

end Curried
