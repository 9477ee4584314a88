import Curried.Proofs.Grammar
import Curried.Proofs.Scan

namespace Curried

namespace Token

namespace Scanner

theorem tokens_of_start {toks : List Token} {c : Char} {s : Scanner} (h : start toks c = .ok s) :
    s.tokens = toks ∨ ∃ t, ofChar? c = some t ∧ s.tokens = t :: toks := by
  unfold start at h
  split at h
  · next t hc =>
    cases h
    exact .inr ⟨t, hc, rfl⟩
  · left
    repeat' split at h
    all_goals cases h
    all_goals rfl

theorem eof_not_mem_start {toks : List Token} (ht : eof ∉ toks) {c : Char} {s : Scanner}
    (h : start toks c = .ok s) : eof ∉ s.tokens := by
  intro hm
  rcases tokens_of_start h with hs | ⟨t, hc, hs⟩
  · rw [hs] at hm
    exact ht hm
  · rw [hs] at hm
    rcases List.mem_cons.mp hm with rfl | hm
    · simp only [ofChar?] at hc
      split at hc <;> cases hc
    · exact ht hm

theorem eof_ne_ofWord (w : String) : eof ≠ ofWord w := by
  unfold ofWord
  split <;> nofun

theorem eof_ne_ofNumeral {negative : Bool} {ds : String} {t : Token}
    (h : ofNumeral negative ds = .ok t) : eof ≠ t := by
  rintro rfl
  simp only [ofNumeral] at h
  split at h <;> cases h

/-- No character makes the token of the end. -/
theorem eof_not_mem_step {s t : Scanner} (hs : eof ∉ s.tokens) {c : Char} (h : s.step c = .ok t) :
    eof ∉ t.tokens := by
  obtain ⟨toks, pending⟩ := s
  cases pending with
  | idle => exact eof_not_mem_start hs h
  | comment =>
    cases h
    exact hs
  | dash =>
    simp only [step] at h
    repeat' split at h
    · cases h
      have hne : eof ≠ arrow := by
        intro h
        cases h
      exact List.not_mem_cons_of_ne_of_not_mem hne hs
    · cases h
      exact hs
    · cases h
  | numeral negative ds =>
    simp only [step] at h
    split at h
    · cases h
      exact hs
    · obtain ⟨n, hn, h⟩ := except_bind_eq_ok_iff.mp h
      apply eof_not_mem_start _ h
      exact List.not_mem_cons_of_ne_of_not_mem (eof_ne_ofNumeral hn) hs
  | word w =>
    simp only [step] at h
    split at h
    · cases h
      exact hs
    · apply eof_not_mem_start _ h
      exact List.not_mem_cons_of_ne_of_not_mem (eof_ne_ofWord w) hs

theorem eof_not_mem_finish {s : Scanner} (hs : eof ∉ s.tokens) {ts : List Token}
    (h : s.finish = .ok ts) : eof ∉ ts := by
  obtain ⟨toks, pending⟩ := s
  cases pending with
  | idle | comment =>
    cases h
    exact hs
  | dash => cases h
  | numeral negative ds =>
    obtain ⟨n, hn, h⟩ := except_bind_eq_ok_iff.mp h
    cases h
    exact List.not_mem_cons_of_ne_of_not_mem (eof_ne_ofNumeral hn) hs
  | word w =>
    cases h
    exact List.not_mem_cons_of_ne_of_not_mem (eof_ne_ofWord w) hs

theorem eof_not_mem_scan {s : Scanner} (hs : eof ∉ s.tokens) {cs : List Char} {ts : List Token}
    (h : s.scan cs = .ok ts) : eof ∉ ts := by
  induction cs generalizing s with
  | nil => exact eof_not_mem_finish hs h
  | cons c cs ih =>
    rw [scan_cons] at h
    obtain ⟨t, ht, h⟩ := except_bind_eq_ok_iff.mp h
    exact ih (eof_not_mem_step hs ht) h

end Scanner

/-- The tokens of a text end with `eof`, which does not stand before. -/
theorem exists_eq_append_eof {text : String} {ts : List Token} (h : tokenize text = .ok ts) :
    ∃ us, ts = us ++ [eof] ∧ eof ∉ us := by
  rw [Scanner.tokenize_eq_scan] at h
  cases hs : Scanner.scan {} text.toList with
  | error e =>
    rw [hs] at h
    cases h
  | ok us =>
    rw [hs] at h
    cases h
    refine ⟨us.reverse, rfl, fun hm => ?_⟩
    exact Scanner.eof_not_mem_scan List.not_mem_nil hs (List.mem_reverse.mp hm)

end Token

open Grammar

theorem Grammar.Params.eof_not_mem {ps : List Token} {xs : List String} (h : Params ps xs) :
    .eof ∉ ps := by
  induction h with
  | one x => simp
  | more x _ ih => simpa using ih

theorem Grammar.ParamList.eof_not_mem {ps : List Token} {xs : List String} (h : ParamList ps xs) :
    .eof ∉ ps := by
  cases h with
  | empty => exact List.not_mem_nil
  | names h => exact h.eof_not_mem

mutual
/-- The end is no part of an expression. -/
theorem Grammar.IsExpr.eof_not_mem {ts : List Token} {e : Expr} (h : IsExpr ts e) : .eof ∉ ts := by
  match h with
  | .keyword hp hb | .arrows hp hb => simp [hp.eof_not_mem, hb.eof_not_mem]
  | .arrow x hb => simp [hb.eof_not_mem]
  | .calls hc => exact hc.eof_not_mem
theorem Grammar.IsCalls.eof_not_mem {ts : List Token} {e : Expr} (h : IsCalls ts e) :
    .eof ∉ ts := by
  match h with
  | .atom ha => exact ha.eof_not_mem
  | .call hf ha => simp [hf.eof_not_mem, ha.eof_not_mem]
theorem Grammar.IsArgList.eof_not_mem {ts : List Token} {es : List Expr} (h : IsArgList ts es) :
    .eof ∉ ts := by
  match h with
  | .empty => exact List.not_mem_nil
  | .args ha => exact ha.eof_not_mem
theorem Grammar.IsArgs.eof_not_mem {ts : List Token} {es : List Expr} (h : IsArgs ts es) :
    .eof ∉ ts := by
  match h with
  | .one he => exact he.eof_not_mem
  | .more he hes => simp [he.eof_not_mem, hes.eof_not_mem]
theorem Grammar.IsAtom.eof_not_mem {ts : List Token} {e : Expr} (h : IsAtom ts e) : .eof ∉ ts := by
  match h with
  | .name x | .int n => simp
  | .group he => simp [he.eof_not_mem]
end

/-- What is parsed from tokens before the end is derived from all of them. -/
theorem isExpr_of_parseTokens_eof {ts : List Token} {e : Expr} (ht : .eof ∉ ts)
    (h : parseTokens (ts ++ [.eof]) = .ok e) : IsExpr ts e := by
  obtain ⟨us, rest, hu, he, hr⟩ := isExpr_of_parseTokens h
  rcases List.eq_nil_or_concat rest with rfl | ⟨vs, t, rfl⟩
  · -- The derivation would go up to the end and have `eof` for its last token.
    rw [List.append_nil] at hu
    rw [← hu] at he
    exact absurd (List.mem_append_right ts (List.mem_singleton_self _)) he.eof_not_mem
  · rw [List.concat_eq_append, ← List.append_assoc] at hu
    have hts : ts = us ++ vs := List.append_inj_left' hu rfl
    cases vs with
    | nil =>
      rw [hts, List.append_nil]
      exact he
    | cons v vs =>
      -- An `eof` that the derivation stopped at would stand among the tokens before the last.
      have hv : v = .eof := by simpa using hr
      rw [hts, hv] at ht
      exact absurd (List.mem_append_right us List.mem_cons_self) ht

/-- The tokens of an expression derive no other, since the parser finds whatever they derive. -/
theorem Grammar.IsExpr.unique {ts : List Token} {a b : Expr} (ha : IsExpr ts a)
    (hb : IsExpr ts b) : a = b := by
  have hp : Except.ok a = Except.ok b :=
    (parseTokens_of_isExpr ha).symm.trans (parseTokens_of_isExpr hb)
  exact Except.ok.inj hp

/-- A text is parsed as an expression exactly when its tokens, up to the end, derive this expression
in the grammar. Tokens derive at most one. -/
theorem parse_eq_ok_iff_isExpr :
    (∀ text e, parse text = .ok e ↔ ∃ ts, tokenize text = .ok (ts ++ [.eof]) ∧ IsExpr ts e) ∧
      ∀ ts a b, IsExpr ts a → IsExpr ts b → a = b := by
  refine ⟨fun text e => ⟨fun h => ?_, ?_⟩, fun ts a b ha hb => ha.unique hb⟩
  · unfold parse at h
    split at h
    · cases h
    · next ts ht =>
      obtain ⟨us, rfl, hu⟩ := Token.exists_eq_append_eof ht
      exact ⟨us, ht, isExpr_of_parseTokens_eof hu h⟩
  · rintro ⟨ts, ht, he⟩
    rw [parse, ht]
    exact parseTokens_of_isExpr he

/-- Names in parentheses are a parameter list in front of the arrow, and a callee and its argument
after it. -/
theorem parse_parameters_and_calls :
    ∃ ts, tokenize "(x, y) -> (x)(y)" = .ok (ts ++ [.eof]) ∧
      IsExpr ts (.lam ["x", "y"] (.call (.name "x") [.name "y"])) ∧
      ∀ e, IsExpr ts e → e = .lam ["x", "y"] (.call (.name "x") [.name "y"]) := by
  have hp : parse "(x, y) -> (x)(y)" =
      .ok (.lam ["x", "y"] (.call (.name "x") [.name "y"])) := by rfl
  obtain ⟨ts, ht, he⟩ := (parse_eq_ok_iff_isExpr.1 _ _).mp hp
  exact ⟨ts, ht, he, fun e h => parse_eq_ok_iff_isExpr.2 ts e _ h he⟩

end Curried
