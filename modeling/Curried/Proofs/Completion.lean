import Curried.Proofs.Parse

/-!
Where parsing stops. What the parser has read by then can be completed: whichever function or
argument list it is in the middle of, there are tokens with which all that was begun comes to an
end. So an error points at a token of the text, and those before it begin the tokens of a text that
is parsed.
-/

namespace Curried

open Grammar Parse Token

namespace Parse.Stop

def rest : Stop → List Token
  | unexpected _ rest | missing rest => rest

def Apt : Stop → Prop
  | unexpected _ _ => True
  | missing rest => rest.headD .eof = .eof

/-- Parsing has stopped after tokens that go on to some with the property `P`. The names that this
takes can be chosen as identifiers. -/
def After (stop : Stop) (P : List Token → Prop) (ts : List Token) : Prop :=
  stop.Apt ∧ ∃ us, ts = us ++ stop.rest ∧ ∃ vs, Spelled vs ∧ P (us ++ vs)

variable {stop : Stop} {P Q : List Token → Prop} {ts us : List Token}

/-- What is pending around the place where parsing stopped stands before it and behind it. The
tokens behind are yet to be read, so their names have to be identifiers. -/
theorem After.between (h : stop.After P ts) (before behind : List Token) (hb : Spelled behind)
    (hus : us = before ++ ts) (hPQ : ∀ vs, P vs → Q (before ++ vs ++ behind)) :
    stop.After Q us := by
  obtain ⟨ha, read, rfl, vs, hvs, hP⟩ := h
  refine ⟨ha, before ++ read, ?_, vs ++ behind, hvs.append hb, ?_⟩
  · rw [hus, List.append_assoc]
  · have hQ := hPQ (read ++ vs) hP
    rw [List.append_assoc] at hQ ⊢
    rwa [List.append_assoc] at hQ

theorem After.behind (h : stop.After P ts) (before : List Token) (hus : us = before ++ ts)
    (hPQ : ∀ vs, P vs → Q (before ++ vs)) : stop.After Q us := by
  apply h.between before [] spelled_nil hus
  intro vs hP
  rw [List.append_nil]
  exact hPQ vs hP

/-- Tokens that are complete may be followed by one that is of no use. -/
theorem after_complete (hP : P us) (wanted : Wanted) (ts : List Token) :
    (unexpected wanted ts).After P (us ++ ts) := by
  refine ⟨trivial, us, rfl, [], spelled_nil, ?_⟩
  rw [List.append_nil]
  exact hP

end Parse.Stop

/-- A name that completes tokens. -/
theorem spelled_x : Spelled [.ident "x"] := by
  apply spelled_nil.cons
  intro x hx
  cases hx
  decide

theorem spelled_closeParen : Spelled [.closeParen] := by
  apply spelled_nil.cons
  intro x hx
  cases hx

theorem eq_of_expect_eq_error {t : Token} {wanted : Wanted} {ts : List Token} {stop : Stop}
    (h : expect t wanted ts = .error stop) : stop = .unexpected wanted ts := by
  cases ts with
  | nil =>
    cases h
    rfl
  | cons u us =>
    simp only [expect] at h
    split at h <;> cases h
    rfl

namespace Grammar

def Parameters (ts : List Token) : Prop := ∃ xs, ParamList ts xs

def Expression (ts : List Token) : Prop := ∃ e, IsExpr ts e

def Chain (ts : List Token) : Prop := ∃ e, IsCalls ts e

def Arguments (ts : List Token) : Prop := ∃ es, IsArgs ts es

theorem expression_name (x : String) : Expression [.ident x] := ⟨.name x, .calls (.atom (.name x))⟩

theorem Chain.expression {ts : List Token} : Chain ts → Expression ts
  | ⟨e, h⟩ => ⟨e, .calls h⟩

theorem Expression.arguments {ts : List Token} : Expression ts → Arguments ts
  | ⟨e, h⟩ => ⟨[e], .one h⟩

end Grammar

/-- Where nothing has been read yet, a name completes an expression. -/
theorem Parse.Stop.after_nil {stop : Stop} (ha : stop.Apt) : stop.After Expression stop.rest :=
  ⟨ha, [], rfl, [.ident "x"], spelled_x, expression_name "x"⟩

theorem params_stop {ts : List Token} {stop : Stop} (h : Parse.params ts = .error stop) :
    stop.After (fun us => ∃ xs, Params us xs) ts := by
  fun_induction Parse.params ts with
  | case1 x ts ih =>
    rcases except_bind_eq_error_iff.mp h with hts | ⟨p, -, h⟩
    · apply (ih hts).behind [.ident x, .comma] rfl
      rintro us ⟨xs, hxs⟩
      exact ⟨x :: xs, .more x hxs⟩
    · cases h
  | case2 x ts => cases h
  | case3 ts =>
    cases h
    exact ⟨trivial, [], rfl, [.ident "x"], spelled_x, ["x"], .one "x"⟩

theorem keywordParams_stop {ts : List Token} {stop : Stop}
    (h : Parse.keywordParams ts = .error stop) : stop.After Parameters ts := by
  unfold Parse.keywordParams at h
  split at h
  · cases h
  · rcases except_bind_eq_error_iff.mp h with hts | ⟨⟨xs, rest⟩, hxs, h⟩
    · apply (params_stop hts).behind [] rfl
      rintro us ⟨xs, hxs⟩
      exact ⟨xs, .names hxs⟩
    · -- All names have been read, and something other than the colon follows.
      rcases except_bind_eq_error_iff.mp h with hcolon | ⟨_, -, h⟩
      · obtain ⟨ps, rfl, hps⟩ := params_sound hxs
        rw [eq_of_expect_eq_error hcolon]
        exact Stop.after_complete ⟨xs, .names hps⟩ .colon rest
      · cases h

structure Stuck (fuel : Nat) : Prop where
  expression : ∀ {ts : List Token} {stop : Stop}, expression fuel ts = .error stop →
    stop.After Expression ts
  calls : ∀ {f : Expr} {ts : List Token} {stop : Stop}, calls fuel f ts = .error stop →
    ∀ fs, IsCalls fs f → stop.After Chain (fs ++ ts)
  moreArgs : ∀ {ts : List Token} {stop : Stop}, moreArgs fuel ts = .error stop →
    ∀ a vs, IsExpr vs a → stop.After Arguments (vs ++ ts)

theorem Parse.Stop.After.group {stop : Stop} {ts : List Token} (h : stop.After Expression ts) :
    stop.After Expression (.openParen :: ts) := by
  apply h.between [.openParen] _ spelled_closeParen rfl
  rintro us ⟨e, he⟩
  exact ⟨e, .calls (.atom (.group he))⟩

theorem Parse.Stop.After.call {stop : Stop} {ts : List Token} (h : stop.After Arguments ts)
    {fs : List Token} {f : Expr} (hf : IsCalls fs f) :
    stop.After Chain (fs ++ .openParen :: ts) := by
  apply h.between (fs ++ [.openParen]) _ spelled_closeParen (by simp)
  rintro us ⟨es, hes⟩
  have hcall := IsCalls.call hf (.args hes)
  exact ⟨.call f es, by simpa using hcall⟩

theorem Stuck.expression_succ {fuel : Nat} (ih : Stuck fuel) {ts : List Token} {stop : Stop}
    (h : Parse.expression (fuel + 1) ts = .error stop) : stop.After Expression ts := by
  unfold Parse.expression at h
  split at h
  · cases h
    exact Stop.after_nil rfl
  · cases h
    exact Stop.after_nil rfl
  · rcases except_bind_eq_error_iff.mp h with hps | ⟨⟨xs, r⟩, hps, h⟩
    · have hcolon : Spelled [.colon, .ident "x"] := spelled_x.cons fun x hx => by cases hx
      apply (keywordParams_stop hps).between [.lambda] _ hcolon rfl
      rintro us ⟨xs, hxs⟩
      exact ⟨_, .keyword hxs (.calls (.atom (.name "x")))⟩
    · rcases except_bind_eq_error_iff.mp h with hb | ⟨_, -, h⟩
      · obtain ⟨ps, rfl, hxs⟩ := keywordParams_sound hps
        apply (ih.expression hb).behind (.lambda :: ps ++ [.colon]) (by simp)
        rintro us ⟨b, hb⟩
        have hlam := IsExpr.keyword hxs hb
        exact ⟨_, by simpa using hlam⟩
      · cases h
  · next x r =>
    rcases except_bind_eq_error_iff.mp h with hb | ⟨_, -, h⟩
    · apply (ih.expression hb).behind [.ident x, .arrow] rfl
      rintro us ⟨b, hb⟩
      exact ⟨_, .arrow x hb⟩
    · cases h
  · next x r _ =>
    exact (ih.calls h [.ident x] (.atom (.name x))).behind [] rfl fun us hu => hu.expression
  · next n r =>
    exact (ih.calls h [.int n] (.atom (.int n))).behind [] rfl fun us hu => hu.expression
  · split at h
    · next xs r ha =>
      rcases except_bind_eq_error_iff.mp h with hb | ⟨_, -, h⟩
      · obtain ⟨ps, rfl, hxs⟩ := arrowParams?_sound ha
        apply (ih.expression hb).behind (.openParen :: ps ++ [.closeParen, .arrow]) (by simp)
        rintro us ⟨b, hb⟩
        have hlam := IsExpr.arrows hxs hb
        exact ⟨_, by simpa using hlam⟩
      · cases h
    · rcases except_bind_eq_error_iff.mp h with hg | ⟨⟨g, r⟩, hg, hx⟩
      · exact (ih.expression hg).group
      · obtain ⟨us, rfl, hu⟩ := (sound fuel).expression hg
        rcases except_bind_eq_error_iff.mp hx with hclose | ⟨r', hclose, hc⟩
        · rw [eq_of_expect_eq_error hclose]
          exact (Stop.after_complete ⟨g, hu⟩ .closeParen r).group
        · rw [expect_sound hclose]
          have hchain := ih.calls hc _ (.atom (.group hu))
          exact hchain.behind [] (by simp) fun us hu => hu.expression
  · cases h
    exact Stop.after_nil trivial

theorem Stuck.calls_succ {fuel : Nat} (ih : Stuck fuel) {f : Expr} {ts : List Token} {stop : Stop}
    (h : Parse.calls (fuel + 1) f ts = .error stop) {fs : List Token} (hf : IsCalls fs f) :
    stop.After Chain (fs ++ ts) := by
  unfold Parse.calls at h
  split at h
  · next heq =>
    cases heq
    have hchain := ih.calls h _ (.call hf .empty)
    simpa using hchain
  · next heq =>
    cases heq
    rcases except_bind_eq_error_iff.mp h with ha | ⟨⟨a, r⟩, ha, hx⟩
    · have hargs : stop.After Arguments _ :=
        (ih.expression ha).behind [] rfl fun us hu => hu.arguments
      exact hargs.call hf
    · obtain ⟨vs, rfl, hv⟩ := (sound fuel).expression ha
      rcases except_bind_eq_error_iff.mp hx with hm | ⟨⟨as, r'⟩, hm, hc⟩
      · exact (ih.moreArgs hm a vs hv).call hf
      · obtain ⟨ws, rfl, hw⟩ := (sound fuel).moreArgs hm
        have hchain := ih.calls hc _ (.call hf (.args (hw a vs hv)))
        simpa using hchain
  · cases h

theorem Stuck.moreArgs_succ {fuel : Nat} (ih : Stuck fuel) {ts : List Token} {stop : Stop}
    (h : Parse.moreArgs (fuel + 1) ts = .error stop) {a : Expr} {vs : List Token}
    (ha : IsExpr vs a) : stop.After Arguments (vs ++ ts) := by
  unfold Parse.moreArgs at h
  split at h
  · next heq =>
    cases heq
    rcases except_bind_eq_error_iff.mp h with hb | ⟨⟨b, r⟩, hb, hx⟩
    · apply (ih.expression hb).behind (vs ++ [.comma]) (by simp)
      rintro us ⟨b, hb⟩
      have hargs := IsArgs.more ha (.one hb)
      exact ⟨_, by simpa using hargs⟩
    · obtain ⟨us, rfl, hu⟩ := (sound fuel).expression hb
      rcases except_bind_eq_error_iff.mp hx with hm | ⟨_, -, hx⟩
      · apply (ih.moreArgs hm b us hu).behind (vs ++ [.comma]) (by simp)
        rintro us ⟨es, hes⟩
        have hargs := IsArgs.more ha hes
        exact ⟨_, by simpa using hargs⟩
      · cases hx
  · cases h
  · cases h
    exact Stop.after_complete ⟨[a], .one ha⟩ _ _

/-- Whatever the fuel, the parsers stop after what can be completed. -/
theorem stuck (fuel : Nat) : Stuck fuel := by
  induction fuel with
  | zero =>
    refine ⟨fun h => ?_, fun h => ?_, fun h a vs ha => ?_⟩
    · cases h
      exact Stop.after_nil trivial
    · cases h
    · unfold Parse.moreArgs at h
      split at h
      · next heq => cases heq
      · cases h
      · cases h
        exact Stop.after_complete ⟨[a], .one ha⟩ _ _
  | succ fuel ih =>
    refine ⟨ih.expression_succ, fun h fs hf => ?_, fun h a vs ha => ?_⟩
    · exact ih.calls_succ h hf
    · exact ih.moreArgs_succ h ha

def Token.spelling : Token → List Char
  | lambda => ['λ']
  | arrow => ['-', '>']
  | colon => [':']
  | comma => [',']
  | openParen => ['(']
  | closeParen => [')']
  | ident name => name.toList
  | int value => (Text.Decimal.ofInt value.toInt).toList
  | eof => []

theorem Token.reads_spelling {t : Token} (hs : ∀ x, t = .ident x → isIdentifier x = true)
    (ht : .eof ≠ t) : Reads t.spelling [t] := by
  cases t with
  | lambda | colon | comma | openParen | closeParen => exact .mark rfl .nil
  | arrow => exact .arrow .nil
  | ident x => exact reads_ident (hs x rfl)
  | int n => exact reads_int n
  | eof => exact absurd rfl ht

/-- Tokens with a space before each of them are read back, as no two run together. -/
theorem exists_tokenize {ts : List Token} (hs : Spelled ts) (ht : .eof ∉ ts) :
    ∃ text, tokenize text = .ok (ts ++ [.eof]) := by
  have hreads : ∃ cs, Breaks cs ∧ Reads cs ts := by
    induction ts with
    | nil => exact ⟨[], .nil, .nil⟩
    | cons t ts ih =>
      rw [List.mem_cons, not_or] at ht
      obtain ⟨cs, hb, hr⟩ := ih (fun x hx => hs x (List.mem_cons_of_mem t hx)) ht.2
      have hone : Reads t.spelling [t] :=
        reads_spelling (fun x hx => hs x (hx ▸ List.mem_cons_self)) ht.1
      exact ⟨' ' :: (t.spelling ++ cs), .cons rfl _, (hone.append hb hr).space⟩
  obtain ⟨cs, -, hr⟩ := hreads
  refine ⟨String.ofList cs, tokenize_of_reads ?_⟩
  rwa [String.toList_ofList]

/-- A text that has the tokens of an expression is parsed as this expression. -/
theorem exists_parse_of_isExpr {ts : List Token} {e : Expr} (hs : Spelled ts) (he : IsExpr ts e) :
    ∃ text, tokenize text = .ok (ts ++ [.eof]) ∧ parse text = .ok e := by
  obtain ⟨text, ht⟩ := exists_tokenize hs he.eof_not_mem
  refine ⟨text, ht, ?_⟩
  rw [parse, ht]
  exact parseTokens_of_isExpr he

def BeginsParsed (ts : List Token) : Prop :=
  ∃ text e rest, tokenize text = .ok (ts ++ rest) ∧ parse text = .ok e

/-- An error points at a token, and the tokens before it begin those of a text that is parsed. -/
structure PointsAt (ts : List Token) (found : Token) (position : Nat) : Prop where
  lt_length : position < ts.length
  getElem?_eq : ts[position]? = some found
  begins : BeginsParsed (ts.take position)

theorem pointsAt_of_expression {us vs ws : List Token} {t : Token} (hs : Spelled (us ++ t :: vs))
    (hws : Spelled ws) (he : Expression (us ++ ws)) :
    PointsAt (us ++ t :: vs) t ((us ++ t :: vs).length - (t :: vs).length) := by
  obtain ⟨e, he⟩ := he
  have hus : Spelled us := fun x hx => hs x (List.mem_append_left _ hx)
  obtain ⟨text, htokens, hparse⟩ := exists_parse_of_isExpr (hus.append hws) he
  have hlength : (us ++ t :: vs).length - (t :: vs).length = us.length := by simp
  rw [hlength]
  refine ⟨by simp, by simp, text, e, ws ++ [.eof], ?_, hparse⟩
  rw [htokens, List.take_left, List.append_assoc]

theorem Parse.Stop.After.pointsAt {stop : Stop} {ts : List Token} (h : stop.After Expression ts)
    (hs : Spelled ts) (he : .eof ∈ ts) :
    PointsAt ts (stop.rest.headD .eof) (ts.length - stop.rest.length) := by
  obtain ⟨-, us, rfl, vs, hvs, e, hexpr⟩ := h
  cases hrest : stop.rest with
  | nil =>
    -- The end would have been read, but it is no part of the expression that was begun.
    rw [hrest, List.append_nil] at he
    exact absurd (List.mem_append_left vs he) hexpr.eof_not_mem
  | cons t rest =>
    rw [hrest] at hs
    exact pointsAt_of_expression hs hvs ⟨e, hexpr⟩

theorem parseTokens_eq_error {ts : List Token} {err : ParseError}
    (h : parseTokens ts = .error err) :
    (∃ stop, Parse.expression (ts.length + 1) ts = .error stop ∧
      err = .ofStop ts.length stop) ∨
    ∃ e t rest, Parse.expression (ts.length + 1) ts = .ok (e, t :: rest) ∧
      err = .trailing t (ts.length - (t :: rest).length) := by
  unfold parseTokens at h
  split at h
  · next stop hstop =>
    cases h
    exact .inl ⟨stop, hstop, rfl⟩
  · cases h
  · cases h
  · next e t rest _ hrest =>
    cases h
    exact .inr ⟨e, t, rest, hrest, rfl⟩

/-- An error of the parser points at a token of the text: the one it reports, and the end where an
expression is missing. The tokens before begin those of a text that is parsed. When the error is
that something follows the expression, they are the tokens of an expression themselves, and a text
that has them and no others is parsed. -/
theorem parse_error_after_valid_tokens {text : String} {ts : List Token}
    (ht : tokenize text = .ok ts) :
    (∀ wanted found p, parse text = .error (.unexpected wanted found p) → PointsAt ts found p) ∧
    (∀ p, parse text = .error (.missing p) → PointsAt ts .eof p) ∧
    ∀ found p, parse text = .error (.trailing found p) → PointsAt ts found p ∧
      ∃ e, IsExpr (ts.take p) e ∧
        ∃ text', tokenize text' = .ok (ts.take p ++ [.eof]) ∧ parse text' = .ok e := by
  have hs : Spelled ts := spelled_of_tokenize ht
  have heof : .eof ∈ ts := by
    obtain ⟨us, rfl, -⟩ := exists_eq_append_eof ht
    exact List.mem_append_right us (List.mem_singleton_self _)
  rw [parse, ht]
  refine ⟨fun wanted found p h => ?_, fun p h => ?_, fun found p h => ?_⟩
  · rcases parseTokens_eq_error h with ⟨stop, hstop, herr⟩ | ⟨e, t, rest, -, herr⟩
    · -- The first of the tokens left is the one that is reported, at the place where it stands.
      have hpoint := ((stuck _).expression hstop).pointsAt hs heof
      cases stop with
      | unexpected _ rest =>
        cases herr
        exact hpoint
      | missing rest => cases herr
    · cases herr
  · rcases parseTokens_eq_error h with ⟨stop, hstop, herr⟩ | ⟨e, t, rest, -, herr⟩
    · have hafter := (stuck _).expression hstop
      have hpoint := hafter.pointsAt hs heof
      cases stop with
      | unexpected _ rest => cases herr
      | missing rest =>
        cases herr
        have hend : rest.headD .eof = .eof := hafter.1
        rw [← hend]
        exact hpoint
    · cases herr
  · rcases parseTokens_eq_error h with ⟨stop, -, herr⟩ | ⟨e, t, rest, hrest, herr⟩
    · cases stop <;> cases herr
    · cases herr
      -- All that was read before is an expression already, so nothing has to complete it.
      obtain ⟨us, rfl, hu⟩ := (sound _).expression hrest
      have hus : Expression (us ++ []) := ⟨e, by rwa [List.append_nil]⟩
      refine ⟨pointsAt_of_expression hs spelled_nil hus, e, ?_⟩
      have htake : (us ++ found :: rest).take
          ((us ++ found :: rest).length - (found :: rest).length) = us := by simp
      rw [htake]
      exact ⟨hu, exists_parse_of_isExpr (fun x hx => hs x (List.mem_append_left _ hx)) hu⟩

/-- Parsing stops in a parameter list, in the arguments of a call inside a group, and after an
expression that a second one follows. -/
theorem parse_error_after_valid_tokens_pending :
    let params : List Token := [.lambda, .ident "x", .comma]
    let args : List Token := [.openParen, .ident "f", .openParen, .int 1, .comma]
    let call : List Token := [.ident "f", .openParen, .closeParen]
    parse "lambda x, : x" = .error (.unexpected .parameterName .colon 3) ∧ BeginsParsed params ∧
      parse "(f(1, " = .error (.missing 5) ∧ BeginsParsed args ∧
      parse "f() g" = .error (.trailing (.ident "g") 3) ∧
      ∃ e, IsExpr call e ∧ ∃ text, tokenize text = .ok (call ++ [.eof]) ∧ parse text = .ok e := by
  intro params args call
  have hparams : tokenize "lambda x, : x" = .ok (params ++ [.colon, .ident "x", .eof]) := by rfl
  have hargs : tokenize "(f(1, " = .ok (args ++ [.eof]) := by rfl
  have hcall : tokenize "f() g" = .ok (call ++ [.ident "g", .eof]) := by rfl
  have hunexpected : parse "lambda x, : x" = .error (.unexpected .parameterName .colon 3) := by
    rw [parse, hparams]
    rfl
  have hmissing : parse "(f(1, " = .error (.missing 5) := by
    rw [parse, hargs]
    rfl
  have htrailing : parse "f() g" = .error (.trailing (.ident "g") 3) := by
    rw [parse, hcall]
    rfl
  exact ⟨hunexpected, ((parse_error_after_valid_tokens hparams).1 _ _ _ hunexpected).begins,
    hmissing, ((parse_error_after_valid_tokens hargs).2.1 _ hmissing).begins,
    htrailing, ((parse_error_after_valid_tokens hcall).2.2 _ _ htrailing).2⟩

end Curried
