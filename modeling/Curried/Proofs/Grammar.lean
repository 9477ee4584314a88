import Curried.Parse
import Curried.Proofs.Success

namespace Curried

open Grammar Parse

theorem Grammar.Params.params {ps : List Token} {xs : List String} (h : Params ps xs)
    {rest : List Token} (hr : rest.head? ≠ some .comma) :
    Parse.params (ps ++ rest) = .ok (xs, rest) := by
  induction h with
  | one x =>
    cases rest with
    | nil => rfl
    | cons t rest => cases t <;> first | exact absurd rfl hr | rfl
  | more x _ ih => simp [Parse.params, ih, pure, Except.pure]

theorem Grammar.Params.head {ps : List Token} {xs : List String} (h : Params ps xs) :
    ∃ x ts, ps = .ident x :: ts := by
  cases h <;> exact ⟨_, _, rfl⟩

theorem Grammar.ParamList.keywordParams {ps : List Token} {xs : List String} (h : ParamList ps xs)
    (rest : List Token) : Parse.keywordParams (ps ++ .colon :: rest) = .ok (xs, rest) := by
  cases h with
  | empty => rfl
  | names h =>
    have hp : Parse.params (ps ++ .colon :: rest) = .ok (xs, .colon :: rest) := h.params (by simp)
    obtain ⟨x, ts, rfl⟩ := h.head
    simp only [List.cons_append] at hp ⊢
    simp [Parse.keywordParams, hp, expect, pure, Except.pure]

theorem Grammar.ParamList.arrowParams? {ps : List Token} {xs : List String} (h : ParamList ps xs)
    (rest : List Token) :
    Parse.arrowParams? (ps ++ .closeParen :: .arrow :: rest) = some (xs, rest) := by
  cases h with
  | empty => rfl
  | names h =>
    have hp : arrowNames? (ps ++ .closeParen :: .arrow :: rest) = some (xs, rest) := by
      induction h with
      | one x => rfl
      | more x _ ih => simp [arrowNames?, ih]
    obtain ⟨x, ts, rfl⟩ := h.head
    exact hp

theorem params_sound {ts rest : List Token} {xs : List String}
    (h : Parse.params ts = .ok (xs, rest)) : ∃ ps, ts = ps ++ rest ∧ Params ps xs := by
  fun_induction Parse.params ts generalizing xs rest with
  | case1 x ts ih =>
    obtain ⟨⟨ys, us⟩, hy, h⟩ := except_bind_eq_ok_iff.mp h
    cases h
    obtain ⟨ps, rfl, hp⟩ := ih hy
    exact ⟨_, rfl, .more x hp⟩
  | case2 x ts => cases h; exact ⟨[.ident x], rfl, .one x⟩
  | case3 ts => cases h

theorem expect_sound {t : Token} {wanted : Wanted} {ts rest : List Token}
    (h : expect t wanted ts = .ok rest) : ts = t :: rest := by
  cases ts with
  | nil => cases h
  | cons u us =>
    simp only [expect] at h
    split at h
    · next hu => cases h; rw [hu]
    · cases h

theorem keywordParams_sound {ts rest : List Token} {xs : List String}
    (h : Parse.keywordParams ts = .ok (xs, rest)) :
    ∃ ps, ts = ps ++ .colon :: rest ∧ ParamList ps xs := by
  unfold Parse.keywordParams at h
  split at h
  · cases h; exact ⟨[], rfl, .empty⟩
  · obtain ⟨⟨ys, us⟩, hy, h⟩ := except_bind_eq_ok_iff.mp h
    obtain ⟨vs, hv, h⟩ := except_bind_eq_ok_iff.mp h
    cases h
    obtain ⟨ps, rfl, hp⟩ := params_sound hy
    exact ⟨ps, by rw [expect_sound hv], .names hp⟩

theorem arrowNames?_sound {ts rest : List Token} {xs : List String}
    (h : arrowNames? ts = some (xs, rest)) :
    ∃ ps, ts = ps ++ .closeParen :: .arrow :: rest ∧ Params ps xs := by
  fun_induction arrowNames? ts generalizing xs rest with
  | case1 x ts ih =>
    obtain ⟨⟨ys, us⟩, hy, he⟩ := Option.map_eq_some_iff.mp h
    cases he
    obtain ⟨ps, rfl, hp⟩ := ih hy
    exact ⟨_, rfl, .more x hp⟩
  | case2 x ts => cases h; exact ⟨[.ident x], rfl, .one x⟩
  | case3 => cases h

theorem arrowParams?_sound {ts rest : List Token} {xs : List String}
    (h : Parse.arrowParams? ts = some (xs, rest)) :
    ∃ ps, ts = ps ++ .closeParen :: .arrow :: rest ∧ ParamList ps xs := by
  unfold Parse.arrowParams? at h
  split at h
  · cases h; exact ⟨[], rfl, .empty⟩
  · obtain ⟨ps, rfl, hp⟩ := arrowNames?_sound h
    exact ⟨ps, rfl, .names hp⟩

structure Sound (fuel : Nat) : Prop where
  expression : ∀ {ts rest : List Token} {e : Expr}, expression fuel ts = .ok (e, rest) →
    ∃ us, ts = us ++ rest ∧ IsExpr us e
  calls : ∀ {f e : Expr} {ts rest : List Token}, calls fuel f ts = .ok (e, rest) →
    ∃ us, ts = us ++ rest ∧ ∀ fs, IsCalls fs f → IsCalls (fs ++ us) e
  moreArgs : ∀ {ts rest : List Token} {as : List Expr}, moreArgs fuel ts = .ok (as, rest) →
    ∃ us, ts = us ++ .closeParen :: rest ∧ ∀ a vs, IsExpr vs a → IsArgs (vs ++ us) (a :: as)

theorem Sound.expression_succ {fuel : Nat} (ih : Sound fuel) {ts rest : List Token} {e : Expr}
    (h : Parse.expression (fuel + 1) ts = .ok (e, rest)) : ∃ us, ts = us ++ rest ∧ IsExpr us e := by
  unfold Parse.expression at h
  split at h
  · cases h
  · cases h
  · obtain ⟨⟨xs, r⟩, hx, h⟩ := except_bind_eq_ok_iff.mp h
    obtain ⟨⟨b, r'⟩, hb, h⟩ := except_bind_eq_ok_iff.mp h
    cases h
    obtain ⟨ps, rfl, hp⟩ := keywordParams_sound hx
    obtain ⟨us, rfl, hu⟩ := ih.expression hb
    exact ⟨_, by simp, .keyword hp hu⟩
  · next x _ =>
    obtain ⟨⟨b, r'⟩, hb, h⟩ := except_bind_eq_ok_iff.mp h
    cases h
    obtain ⟨us, rfl, hu⟩ := ih.expression hb
    exact ⟨_, by simp, .arrow x hu⟩
  · next x _ _ =>
    obtain ⟨us, rfl, hu⟩ := ih.calls h
    exact ⟨_, by simp, .calls (hu [.ident x] (.atom (.name x)))⟩
  · next n _ =>
    obtain ⟨us, rfl, hu⟩ := ih.calls h
    exact ⟨_, by simp, .calls (hu [.int n] (.atom (.int n)))⟩
  -- a parenthesis, which begins a parameter list only if an arrow comes after its end
  · split at h
    · next xs r ha =>
      obtain ⟨⟨b, r'⟩, hb, h⟩ := except_bind_eq_ok_iff.mp h
      cases h
      obtain ⟨ps, rfl, hp⟩ := arrowParams?_sound ha
      obtain ⟨us, rfl, hu⟩ := ih.expression hb
      exact ⟨_, by simp, .arrows hp hu⟩
    · obtain ⟨⟨g, r⟩, hg, hx⟩ := except_bind_eq_ok_iff.mp h
      obtain ⟨r', hr, hc⟩ := except_bind_eq_ok_iff.mp hx
      obtain ⟨us, rfl, hu⟩ := ih.expression hg
      obtain ⟨vs, rfl, hv⟩ := ih.calls hc
      rw [expect_sound hr]
      exact ⟨_, by simp, .calls (hv _ (.atom (.group hu)))⟩
  · cases h

theorem Sound.calls_succ {fuel : Nat} (ih : Sound fuel) {f e : Expr} {ts rest : List Token}
    (h : Parse.calls (fuel + 1) f ts = .ok (e, rest)) :
    ∃ us, ts = us ++ rest ∧ ∀ fs, IsCalls fs f → IsCalls (fs ++ us) e := by
  unfold Parse.calls at h
  split at h
  · next heq =>
    cases heq
    obtain ⟨us, rfl, hu⟩ := ih.calls h
    refine ⟨.openParen :: .closeParen :: us, rfl, fun fs hf => ?_⟩
    have hc := hu _ (.call hf .empty)
    simpa using hc
  · next heq =>
    cases heq
    obtain ⟨⟨a, r⟩, ha, hx⟩ := except_bind_eq_ok_iff.mp h
    obtain ⟨⟨as, r'⟩, hm, hc⟩ := except_bind_eq_ok_iff.mp hx
    obtain ⟨vs, rfl, hv⟩ := ih.expression ha
    obtain ⟨ws, rfl, hw⟩ := ih.moreArgs hm
    obtain ⟨us, rfl, hu⟩ := ih.calls hc
    refine ⟨.openParen :: (vs ++ (ws ++ .closeParen :: us)), by simp, fun fs hf => ?_⟩
    have hi := hu _ (.call hf (.args (hw a vs hv)))
    simpa using hi
  · cases h
    exact ⟨[], rfl, fun fs hf => by simpa using hf⟩

theorem Sound.moreArgs_succ {fuel : Nat} (ih : Sound fuel) {ts rest : List Token} {as : List Expr}
    (h : Parse.moreArgs (fuel + 1) ts = .ok (as, rest)) :
    ∃ us, ts = us ++ .closeParen :: rest ∧
      ∀ a vs, IsExpr vs a → IsArgs (vs ++ us) (a :: as) := by
  unfold Parse.moreArgs at h
  split at h
  · next heq =>
    cases heq
    obtain ⟨⟨b, r⟩, hb, h⟩ := except_bind_eq_ok_iff.mp h
    obtain ⟨⟨bs, r'⟩, hm, h⟩ := except_bind_eq_ok_iff.mp h
    cases h
    obtain ⟨us, rfl, hu⟩ := ih.expression hb
    obtain ⟨ws, rfl, hw⟩ := ih.moreArgs hm
    refine ⟨.comma :: (us ++ ws), by simp, fun a vs ha => ?_⟩
    exact .more ha (hw b us hu)
  · cases h
    exact ⟨[], rfl, fun a vs ha => by simpa using IsArgs.one ha⟩
  · cases h

/-- Whatever the fuel, the parsers read derivations only. -/
theorem sound (fuel : Nat) : Sound fuel := by
  induction fuel with
  | zero =>
    refine ⟨fun h => ?_, fun h => ?_, fun h => ?_⟩
    · cases h
    · cases h
      exact ⟨[], rfl, fun fs hf => by simpa using hf⟩
    · unfold Parse.moreArgs at h
      split at h
      · next heq => cases heq
      · cases h
        exact ⟨[], rfl, fun a vs ha => by simpa using IsArgs.one ha⟩
      · cases h
  | succ fuel ih => exact ⟨ih.expression_succ, ih.calls_succ, ih.moreArgs_succ⟩

def Opens : List Token → Prop
  | .lambda :: _ | .openParen :: _ | .int _ :: _ => True
  | .ident _ :: ts => ts = [] ∨ ts.head? = some .arrow ∨ ts.head? = some .openParen
  | _ => False

theorem Opens.append {ts : List Token} (h : Opens ts) (us : List Token) :
    Opens (ts ++ .openParen :: us) := by
  match ts, h with
  | .lambda :: _, _ | .openParen :: _, _ | .int _ :: _, _ => trivial
  | .ident _ :: [], _ => exact .inr (.inr rfl)
  | .ident _ :: _ :: _, .inr h => exact .inr h

theorem Grammar.IsAtom.opens {ts : List Token} {e : Expr} : IsAtom ts e → Opens ts
  | .name _ => .inl rfl
  | .int _ | .group _ => trivial

theorem Grammar.IsCalls.opens {ts : List Token} {e : Expr} : IsCalls ts e → Opens ts
  | .atom h => h.opens
  | .call h _ => by
    rw [List.append_assoc]
    exact h.opens.append _

theorem Grammar.IsExpr.opens {ts : List Token} {e : Expr} : IsExpr ts e → Opens ts
  | .keyword _ _ | .arrows _ _ => trivial
  | .arrow _ _ => .inr (.inl rfl)
  | .calls h => h.opens

/-- The parenthesis of a group is not mistaken for that of a parameter list. -/
theorem Opens.arrowParams?_eq_none {ts : List Token} (h : Opens ts) {rest : List Token}
    (hr : rest.head? ≠ some .arrow) : arrowParams? (ts ++ .closeParen :: rest) = none := by
  match ts, h with
  | .lambda :: _, _ | .openParen :: _, _ | .int _ :: _, _ => rfl
  | .ident _ :: [], _ =>
    cases rest with
    | nil => rfl
    | cons t rest => cases t <;> first | exact absurd rfl hr | rfl
  | .ident _ :: .arrow :: _, _ | .ident _ :: .openParen :: _, _ => rfl

theorem expression_ident (fuel : Nat) (x : String) {rest : List Token}
    (hr : rest.head? ≠ some .arrow) :
    Parse.expression (fuel + 1) (.ident x :: rest) = Parse.calls fuel (.name x) rest := by
  cases rest with
  | nil => simp [Parse.expression]
  | cons t rest => cases t <;> first | exact absurd rfl hr | simp [Parse.expression]

theorem expression_group (fuel : Nat) {ts : List Token} (ht : arrowParams? ts = none) :
    Parse.expression (fuel + 1) (.openParen :: ts) = (do
      let (e, rest) ← Parse.expression fuel ts
      let rest ← expect .closeParen .closeParen rest
      Parse.calls fuel e rest) := by
  simp [Parse.expression, ht]

theorem calls_eq_ok (fuel : Nat) (e : Expr) {rest : List Token}
    (hr : rest.head? ≠ some .openParen) : Parse.calls fuel e rest = .ok (e, rest) := by
  unfold Parse.calls
  split
  · exact absurd rfl hr
  · exact absurd rfl hr
  · rfl

theorem calls_args (fuel : Nat) (f : Expr) {ts : List Token} (ht : ts.head? ≠ some .closeParen) :
    Parse.calls (fuel + 1) f (.openParen :: ts) = (do
      let (a, rest) ← Parse.expression fuel ts
      let (as, rest) ← Parse.moreArgs fuel rest
      Parse.calls fuel (.call f (a :: as)) rest) := by
  cases ts with
  | nil => simp [Parse.calls]
  | cons t ts => cases t <;> first | exact absurd rfl ht | simp [Parse.calls]

theorem moreArgs_closeParen (fuel : Nat) (rest : List Token) :
    Parse.moreArgs fuel (.closeParen :: rest) = .ok ([], rest) := by
  cases fuel <;> simp [Parse.moreArgs]

theorem Grammar.IsArgs.opens {ts : List Token} {es : List Expr} (h : IsArgs ts es)
    (rest : List Token) : (ts ++ rest).head? ≠ some .closeParen := by
  have ho {us : List Token} {e : Expr} (hu : IsExpr us e) (vs : List Token) :
      (us ++ vs).head? ≠ some .closeParen := by
    match us, hu.opens with
    | .lambda :: _, _ | .openParen :: _, _ | .int _ :: _, _ | .ident _ :: _, _ => nofun
  cases h with
  | one he => exact ho he rest
  | more he _ =>
    rw [List.append_assoc]
    exact ho he _

-- The fuel is counted against the tokens of the derivation alone: what follows them costs nothing.
-- A chain of calls is left-nested in the grammar and a loop in the parser, so it is stated as the
-- fuel `k` that the loop has used when it comes to the end of the chain.
mutual
theorem Grammar.IsExpr.expression {ts : List Token} {e : Expr} (h : IsExpr ts e) (fuel : Nat)
    (rest : List Token) (hf : ts.length ≤ fuel) (ha : rest.head? ≠ some .arrow)
    (hp : rest.head? ≠ some .openParen) : Parse.expression fuel (ts ++ rest) = .ok (e, rest) := by
  match h with
  | .keyword hps hb =>
    simp only [List.cons_append, List.length_cons, List.length_append] at hf
    obtain ⟨fuel, rfl⟩ : ∃ n, fuel = n + 1 := ⟨fuel - 1, by omega⟩
    have hi := hb.expression fuel rest (by omega) ha hp
    simp [Parse.expression, hps.keywordParams, hi, pure, Except.pure]
  | .arrow x hb =>
    simp only [List.length_cons] at hf
    obtain ⟨fuel, rfl⟩ : ∃ n, fuel = n + 1 := ⟨fuel - 1, by omega⟩
    have hi := hb.expression fuel rest (by omega) ha hp
    simp [Parse.expression, hi, pure, Except.pure]
  | .arrows hps hb =>
    simp only [List.cons_append, List.length_cons, List.length_append] at hf
    obtain ⟨fuel, rfl⟩ : ∃ n, fuel = n + 1 := ⟨fuel - 1, by omega⟩
    have hi := hb.expression fuel rest (by omega) ha hp
    simp [Parse.expression, hps.arrowParams?, hi, pure, Except.pure]
  | .calls hc =>
    obtain ⟨k, hk, hi⟩ := hc.expression
    obtain ⟨fuel, rfl⟩ : ∃ n, fuel = n + k := ⟨fuel - k, by omega⟩
    rw [hi fuel rest hf ha, calls_eq_ok fuel e hp]
theorem Grammar.IsCalls.expression {ts : List Token} {e : Expr} (h : IsCalls ts e) :
    ∃ k ≤ ts.length, ∀ fuel rest, ts.length ≤ fuel + k → rest.head? ≠ some .arrow →
      Parse.expression (fuel + k) (ts ++ rest) = Parse.calls fuel e rest := by
  match h with
  | .atom ha => exact ha.expression
  | @IsCalls.call us as _ _ hf hargs =>
    obtain ⟨k, hk, hi⟩ := hf.expression
    refine ⟨k + 1, by simp; omega, fun fuel rest hfuel hr => ?_⟩
    simp only [List.length_append, List.length_cons, List.length_nil] at hfuel
    have hc := hi (fuel + 1) (.openParen :: as ++ .closeParen :: rest) (by omega) (by simp)
    rw [hargs.calls fuel _ rest (by omega)] at hc
    rw [← hc]
    simp [Nat.add_comm 1 k, Nat.add_assoc]
theorem Grammar.IsAtom.expression {ts : List Token} {e : Expr} (h : IsAtom ts e) :
    ∃ k ≤ ts.length, ∀ fuel rest, ts.length ≤ fuel + k → rest.head? ≠ some .arrow →
      Parse.expression (fuel + k) (ts ++ rest) = Parse.calls fuel e rest := by
  match h with
  | .name x => exact ⟨1, by simp, fun fuel rest _ hr => expression_ident fuel x hr⟩
  | .int n => exact ⟨1, by simp, fun fuel rest _ _ => by simp [Parse.expression]⟩
  | .group hg =>
    refine ⟨1, by simp, fun fuel rest hfuel hr => ?_⟩
    simp only [List.cons_append, List.length_append, List.length_cons, List.length_nil] at hfuel
    have hi := hg.expression fuel (.closeParen :: rest) (by omega) (by simp) (by simp)
    have hn := hg.opens.arrowParams?_eq_none hr
    simp [expression_group fuel hn, hi, expect]
theorem Grammar.IsArgList.calls {as : List Token} {es : List Expr} (h : IsArgList as es)
    (fuel : Nat)
    (f : Expr) (rest : List Token) (hf : as.length ≤ fuel) :
    Parse.calls (fuel + 1) f (.openParen :: as ++ .closeParen :: rest) =
      Parse.calls fuel (.call f es) rest := by
  match h with
  | .empty => simp [Parse.calls]
  | .args ha =>
    obtain ⟨a, bs, r, rfl, he, hm⟩ := ha.moreArgs fuel rest hf
    rw [List.cons_append, calls_args fuel f (ha.opens _), he]
    simp [hm]
theorem Grammar.IsArgs.moreArgs {as : List Token} {es : List Expr} (h : IsArgs as es) (fuel : Nat)
    (rest : List Token) (hf : as.length ≤ fuel) :
    ∃ a bs r, es = a :: bs ∧
      Parse.expression fuel (as ++ .closeParen :: rest) = .ok (a, r) ∧
      Parse.moreArgs fuel r = .ok (bs, rest) := by
  match h with
  | @IsArgs.one _ a ha =>
    have hi := ha.expression fuel (.closeParen :: rest) hf (by simp) (by simp)
    exact ⟨a, [], _, rfl, hi, moreArgs_closeParen fuel rest⟩
  | @IsArgs.more _ us a _ ha hb =>
    simp only [List.length_append, List.length_cons] at hf
    have hi := ha.expression fuel (.comma :: (us ++ .closeParen :: rest)) (by omega) (by simp)
      (by simp)
    obtain ⟨fuel, rfl⟩ : ∃ n, fuel = n + 1 := ⟨fuel - 1, by omega⟩
    obtain ⟨b, cs, r, rfl, he, hm⟩ := hb.moreArgs fuel rest (by omega)
    refine ⟨a, _, _, rfl, by simpa using hi, ?_⟩
    simp [Parse.moreArgs, he, hm, pure, Except.pure]
end

theorem parseTokens_of_isExpr {ts : List Token} {e : Expr} (h : IsExpr ts e) :
    parseTokens (ts ++ [.eof]) = .ok e := by
  have hp := h.expression ((ts ++ [Token.eof]).length + 1) [.eof] (by simp; omega) (by simp)
    (by simp)
  simp only [parseTokens, hp]

theorem isExpr_of_parseTokens {ts : List Token} {e : Expr} (h : parseTokens ts = .ok e) :
    ∃ us rest, ts = us ++ rest ∧ IsExpr us e ∧ (rest = [] ∨ rest.head? = some .eof) := by
  unfold parseTokens at h
  split at h
  · cases h
  · next hp =>
    cases h
    obtain ⟨us, hu, he⟩ := (sound _).expression hp
    exact ⟨us, [], hu, he, .inl rfl⟩
  · next rest hp =>
    cases h
    obtain ⟨us, hu, he⟩ := (sound _).expression hp
    exact ⟨us, .eof :: rest, hu, he, .inr rfl⟩
  · cases h

end Curried
