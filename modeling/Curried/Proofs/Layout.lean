import Curried.Proofs.Parse

namespace Curried

namespace Token

namespace Scanner

def above (s : Scanner) (base : List Token) : Scanner := { s with tokens := s.tokens ++ base }

theorem start_append (toks base : List Token) (c : Char) :
    start (toks ++ base) c = (start toks c).map (above · base) := by
  unfold start
  cases ofChar? c with
  | some t => rfl
  | none => split_ifs <;> rfl

/-- No step looks at the tokens read before. -/
theorem step_above (s : Scanner) (base : List Token) (c : Char) :
    (s.above base).step c = (s.step c).map (above · base) := by
  obtain ⟨toks, pending⟩ := s
  cases pending with
  | idle => exact start_append toks base c
  | comment => rfl
  | dash =>
    simp only [above, step]
    split_ifs <;> rfl
  | numeral negative ds =>
    simp only [above, step]
    split_ifs
    · rfl
    · cases ofNumeral negative ds with
      | error e => rfl
      | ok t => exact start_append (t :: toks) base c
  | word w =>
    simp only [above, step]
    split_ifs
    · rfl
    · exact start_append (ofWord w :: toks) base c

theorem finish_above (s : Scanner) (base : List Token) :
    (s.above base).finish = s.finish.map (· ++ base) := by
  obtain ⟨toks, pending⟩ := s
  cases pending with
  | idle | comment | dash | word => rfl
  | numeral negative ds =>
    simp only [above, finish]
    cases ofNumeral negative ds <;> rfl

theorem scan_above (s : Scanner) (base : List Token) (cs : List Char) :
    (s.above base).scan cs = (s.scan cs).map (· ++ base) := by
  induction cs generalizing s with
  | nil => exact finish_above s base
  | cons c cs ih =>
    rw [scan_cons, scan_cons, step_above]
    cases s.step c with
    | error e => rfl
    | ok t => exact ih t

/-- A line break ends every lexeme as the end of the text does: a comment, a name and a numeral are
complete, and a dash alone is an error. -/
theorem scan_newline (s : Scanner) (cs : List Char) :
    s.scan ('\n' :: cs) = (do scan ⟨← s.finish, .idle⟩ cs) := by
  obtain ⟨toks, pending⟩ := s
  have hstart (toks : List Token) : start toks '\n' = .ok ⟨toks, .idle⟩ := start_of_isBlank rfl toks
  cases pending with
  | idle => simp [step, finish, hstart]
  | comment => rfl
  | dash => rfl
  | numeral negative ds =>
    have hdigit : '\n'.isDigit = false := rfl
    rw [scan_cons, step, finish, hdigit]
    cases ofNumeral negative ds with
    | error e => rfl
    | ok t => simp [hstart, pure, Except.pure]
  | word w =>
    have hpart : isNamePart '\n' = false := rfl
    simp [step, finish, hpart, hstart]

theorem scan_line (s : Scanner) (cs ds : List Char) :
    s.scan (cs ++ '\n' :: ds) = (do scan ⟨← s.scan cs, .idle⟩ ds) := by
  induction cs generalizing s with
  | nil => exact scan_newline s ds
  | cons c cs ih => simp only [List.cons_append, scan_cons, ih, bind_assoc]

/-- The tokens of two lines are those of the first and, after them, those of the second. -/
theorem scan_lines (a b : String) :
    scan {} (a ++ "\n" ++ b).toList = (do
      let ts ← scan {} a.toList
      (scan {} b.toList).map (· ++ ts)) := by
  have hlist : (a ++ "\n" ++ b).toList = a.toList ++ '\n' :: b.toList := by simp
  rw [hlist, scan_line]
  congr 1
  funext ts
  exact scan_above {} ts b.toList

end Scanner

end Token

open Token

/-- A text with a line break in it fails as what stands before the break does, and otherwise as what
stands behind it does. If neither fails, its tokens are those before the break, without the end, and
those behind it. -/
theorem tokenize_line_break (a b : String) :
    (∀ e, tokenize a = .error e → tokenize (a ++ "\n" ++ b) = .error e) ∧
      ∀ ts, tokenize a = .ok ts → ∃ us, ts = us ++ [.eof] ∧ .eof ∉ us ∧
        tokenize (a ++ "\n" ++ b) = (tokenize b).map (us ++ ·) := by
  have hlines := Scanner.scan_lines a b
  constructor
  · intro e he
    rw [Scanner.tokenize_eq_scan, except_map_eq_error_iff] at he ⊢
    rw [hlines, he]
    rfl
  · intro ts hts
    obtain ⟨us, rfl, heof⟩ := exists_eq_append_eof hts
    refine ⟨us, rfl, heof, ?_⟩
    rw [Scanner.tokenize_eq_scan] at hts
    cases ha : Scanner.scan {} a.toList with
    | error e =>
      rw [ha] at hts
      cases hts
    | ok vs =>
      rw [ha] at hts
      have hvs : vs.reverse = us := List.append_cancel_right (Except.ok.inj hts)
      rw [Scanner.tokenize_eq_scan, Scanner.tokenize_eq_scan, hlines, ha, ok_bind]
      cases Scanner.scan {} b.toList with
      | error e => rfl
      | ok ws => simp [Except.map, hvs]

/-- A dash, a comment and a word that are pending where the line ends. -/
theorem tokenize_line_break_pending :
    tokenize ("x -" ++ "\n" ++ "> x") = .error (.unexpected '-') ∧
      tokenize ("x # -" ++ "\n" ++ "-7") = .ok [.ident "x", .int (-7), .eof] ∧
      tokenize ("lamb" ++ "\n" ++ "da 9223372036854775808") =
        .error (.outOfRange "9223372036854775808") := by
  have hdash : tokenize "x -" = .error (.unexpected '-') := by rfl
  have hcomment : tokenize "x # -" = .ok [.ident "x", .eof] := by rfl
  have hword : tokenize "lamb" = .ok [.ident "lamb", .eof] := by rfl
  have hseven : tokenize "-7" = .ok [.int (-7), .eof] := by rfl
  have hrange : tokenize "da 9223372036854775808" =
      .error (.outOfRange "9223372036854775808") := by rfl
  refine ⟨(tokenize_line_break "x -" "> x").1 _ hdash, ?_, ?_⟩
  · obtain ⟨us, hus, -, h⟩ := (tokenize_line_break "x # -" "-7").2 _ hcomment
    have hus : [.ident "x"] ++ [.eof] = us ++ [.eof] := hus
    rw [h, hseven, ← List.append_cancel_right hus]
    rfl
  · obtain ⟨us, -, -, h⟩ := (tokenize_line_break "lamb" "da 9223372036854775808").2 _ hword
    rw [h, hrange]
    rfl

namespace Token

inductive Layout : List Char → Prop
  | nil : Layout []
  | blank {c : Char} {cs : List Char} (hc : Text.isBlank c = true) (h : Layout cs) :
      Layout (c :: cs)
  | comment {remark cs : List Char} (hr : '\n' ∉ remark) (h : Layout cs) :
      Layout ('#' :: (remark ++ '\n' :: cs))

theorem Layout.breaks {gap : List Char} (h : Layout gap) : Breaks gap := by
  cases h with
  | nil => exact .nil
  | blank hc _ => exact .cons (isNamePart_of_isBlank hc) _
  | comment _ _ => exact .cons rfl _

/-- A comment goes on up to the end of its line. -/
theorem Scanner.scan_comment (toks : List Token) {remark : List Char} (hr : '\n' ∉ remark)
    (rest : List Char) :
    scan ⟨toks, .comment⟩ (remark ++ '\n' :: rest) = scan ⟨toks, .idle⟩ rest := by
  induction remark with
  | nil => rfl
  | cons c remark ih =>
    obtain ⟨hc, hr⟩ := List.ne_and_not_mem_of_not_mem_cons hr
    rw [List.cons_append, scan_cons, step, if_neg hc.symm]
    exact ih hr

/-- A comment may stand before any text. -/
theorem Reads.comment {remark : List Char} (hr : '\n' ∉ remark) {cs : List Char} {ts : List Token}
    (h : Reads cs ts) : Reads ('#' :: (remark ++ '\n' :: cs)) ts := by
  intro toks rest hrest
  have hs : Scanner.start toks '#' = .ok ⟨toks, .comment⟩ := rfl
  rw [List.cons_append, Scanner.scan_cons, Scanner.step, hs, ok_bind, List.append_assoc,
    List.cons_append, Scanner.scan_comment toks hr]
  exact h toks rest hrest

/-- Layout adds no tokens to the text behind it. -/
theorem Reads.layout {gap cs : List Char} {ts : List Token} (hg : Layout gap) (h : Reads cs ts) :
    Reads (gap ++ cs) ts := by
  induction hg with
  | nil => exact h
  | blank hc _ ih => exact ih.blank hc
  | comment hr _ ih =>
    rw [List.cons_append, List.append_assoc]
    exact ih.comment hr

inductive Spells : Token → List Char → Prop
  | keyword : Spells lambda "lambda".toList
  | letter : Spells lambda ['λ']
  | backslash : Spells lambda ['\\']
  | arrow : Spells arrow ['-', '>']
  | colon : Spells colon [':']
  | comma : Spells comma [',']
  | openParen : Spells openParen ['(']
  | closeParen : Spells closeParen [')']
  | ident (x : String) : Spells (ident x) x.toList
  | int (zeros : Nat) (n : Int64) : Spells (int n) (padded zeros n.toInt)

theorem Spells.reads {t : Token} {word : List Char} (h : t.Spells word)
    (ht : ∀ x, t = .ident x → isIdentifier x = true) : Reads word [t] := by
  cases h with
  | keyword => exact reads_word ⟨'l', "ambda".toList, rfl, rfl, rfl⟩
  | letter | backslash | colon | comma | openParen | closeParen => exact .mark rfl .nil
  | arrow => exact .arrow .nil
  | ident x => exact reads_ident (ht x rfl)
  | int zeros n => exact reads_padded zeros n

/-- Texts of tokens: each is spelled in some way and followed by layout, which is empty at most
behind the last. -/
inductive Written : List Token → List Char → Prop
  | nil : Written [] []
  | cons {t : Token} {ts : List Token} {word gap text : List Char} (hw : t.Spells word)
      (hg : Layout gap) (hne : ts ≠ [] → gap ≠ []) (h : Written ts text) :
      Written (t :: ts) (word ++ gap ++ text)

theorem Written.reads {ts : List Token} {text : List Char} (h : Written ts text) (hs : Spelled ts) :
    Reads text ts := by
  induction h with
  | nil => exact .nil
  | @cons t ts word gap text hw hg hne h ih =>
    have hword : Reads word [t] := hw.reads fun x hx => hs x (hx ▸ List.mem_cons_self)
    have htext : Reads text ts := ih fun x hx => hs x (List.mem_cons_of_mem t hx)
    have hbreaks : Breaks (gap ++ text) := by
      cases h with
      | nil => exact hg.breaks.append .nil
      | cons => exact hg.breaks.append_of_ne_nil (hne (List.cons_ne_nil _ _)) _
    rw [List.append_assoc]
    exact hword.append hbreaks (htext.layout hg)

end Token

/-- Tokens are found again in every text of them, with layout before the first. All names among them
have to be identifiers. -/
theorem tokenize_written {ts : List Token} (hs : Spelled ts) {lead text : List Char}
    (hl : Layout lead) (hw : Written ts text) :
    tokenize (String.ofList (lead ++ text)) = .ok (ts ++ [.eof]) := by
  have hreads : Reads (lead ++ text) ts := (hw.reads hs).layout hl
  apply tokenize_of_reads
  rwa [String.toList_ofList]

/-- The keyword, a name that begins with it and the least integer, with a blank outside ASCII, a
comment that looks like tokens, and leading zeros. -/
theorem tokenize_written_least :
    let ts : List Token := [.lambda, .ident "lambdas", .int Int64.minValue]
    let lead : List Char := "\u3000".toList
    let text : List Char := "lambda#\\ -> -\nlambdas\u0085-009223372036854775808".toList
    Spelled ts ∧ Layout lead ∧ Written ts text ∧
      tokenize (String.ofList (lead ++ text)) = .ok (ts ++ [.eof]) := by
  intro ts lead text
  have hs : Spelled ts := by
    intro x hx
    obtain rfl : x = "lambdas" := by simpa [ts] using hx
    decide
  have hlead : Layout lead := .blank rfl .nil
  have hremark : '\n' ∉ "\\ -> -".toList := by decide
  have hcomment : Layout "#\\ -> -\n".toList := .comment hremark .nil
  have hblank : Layout "\u0085".toList := .blank rfl .nil
  have hdigits : padded 2 Int64.minValue.toInt = "-009223372036854775808".toList := by rfl
  have hint : Written [.int Int64.minValue] "-009223372036854775808".toList := by
    have h : Written [.int Int64.minValue] (padded 2 Int64.minValue.toInt ++ [] ++ []) :=
      .cons (.int 2 Int64.minValue) .nil (absurd rfl) .nil
    rwa [List.append_nil, List.append_nil, hdigits] at h
  have htext : Written ts text :=
    .cons .keyword hcomment (fun _ => List.cons_ne_nil _ _)
      (.cons (.ident "lambdas") hblank (fun _ => List.cons_ne_nil _ _) hint)
  exact ⟨hs, hlead, htext, tokenize_written hs hlead htext⟩

end Curried
