import Curried.Proofs.Names
import Curried.Proofs.Success
import Curried.Token
import Mathlib.Data.List.Basic

namespace Curried

theorem Text.Decimal.toWord?_toInt (n : Int64) : toWord? n.toInt = some n := by
  rw [toWord?, if_pos ⟨n.minValue_le_toInt, n.toInt_le⟩, Int64.ofInt_toInt]

namespace Token

namespace Scanner

def scan (s : Scanner) (cs : List Char) : Except ScanError (List Token) := do
  (← cs.foldlM step s).finish

@[simp] theorem scan_nil (s : Scanner) : s.scan [] = s.finish := rfl

@[simp] theorem scan_cons (s : Scanner) (c : Char) (cs : List Char) :
    s.scan (c :: cs) = (do (← s.step c).scan cs) := by
  simp only [scan, List.foldlM_cons, bind_assoc]

theorem tokenize_eq_scan (text : String) :
    tokenize text = (scan {} text.toList).map fun ts => ts.reverse ++ [eof] := by
  cases h : text.toList.foldlM step ({} : Scanner) with
  | error e => simp [tokenize, scan, h, Except.map]
  | ok s => cases hf : s.finish <;> simp [tokenize, scan, h, hf, Except.map, pure, Except.pure]

end Scanner

/-- Texts that do not go on with a name or a numeral: they are empty or begin with another sort of
character. -/
def Breaks (cs : List Char) : Prop := ∀ c ∈ cs.head?, isNamePart c = false

theorem Breaks.nil : Breaks [] := nofun

theorem Breaks.cons {c : Char} (hc : isNamePart c = false) (cs : List Char) : Breaks (c :: cs) := by
  simpa [Breaks] using hc

/-- Only the first character counts. -/
theorem Breaks.append_of_ne_nil {cs : List Char} (hc : Breaks cs) (hne : cs ≠ []) (ds : List Char) :
    Breaks (cs ++ ds) := by
  obtain ⟨c, cs, rfl⟩ := List.exists_cons_of_ne_nil hne
  exact .cons (hc c rfl) _

theorem Breaks.append {cs ds : List Char} (hc : Breaks cs) (hd : Breaks ds) :
    Breaks (cs ++ ds) := by
  by_cases hne : cs = []
  · rwa [hne, List.nil_append]
  · exact hc.append_of_ne_nil hne ds

/-- A name goes on with what may start it and with digits. -/
theorem isNamePart_iff {c : Char} :
    isNamePart c = true ↔ isNameStart c = true ∨ c.isDigit = true := by
  simp only [isNamePart, isNameStart, Char.isAlphanum, Bool.or_eq_true]
  exact or_right_comm

theorem isNamePart_of_isNameStart {c : Char} (hc : isNameStart c = true) : isNamePart c = true :=
  isNamePart_iff.mpr (.inl hc)

theorem isNamePart_of_isDigit {c : Char} (hc : c.isDigit = true) : isNamePart c = true :=
  isNamePart_iff.mpr (.inr hc)

theorem isNameStart_eq_false {c : Char} (hc : isNamePart c = false) : isNameStart c = false := by
  cases hs : isNameStart c with
  | false => rfl
  | true => rw [isNamePart_of_isNameStart hs] at hc; cases hc

theorem isDigit_eq_false {c : Char} (hc : isNamePart c = false) : c.isDigit = false := by
  cases hd : c.isDigit with
  | false => rfl
  | true => rw [isNamePart_of_isDigit hd] at hc; cases hc

theorem toNat_of_isNameStart {c : Char} (hc : isNameStart c = true) :
    65 ≤ c.toNat ∧ c.toNat ≤ 122 := by
  rcases Bool.or_eq_true_iff.mp hc with hletter | hline
  · rcases Bool.or_eq_true_iff.mp hletter with hupper | hlower
    · obtain ⟨hA, hZ⟩ := of_decide_eq_true hupper
      have hA : 65 ≤ c.toNat := UInt32.le_iff_toNat_le.mp hA
      have hZ : c.toNat ≤ 90 := UInt32.le_iff_toNat_le.mp hZ
      omega
    · obtain ⟨ha, hz⟩ := Bool.and_eq_true_iff.mp hlower
      have ha : 97 ≤ c.toNat := UInt32.le_iff_toNat_le.mp (of_decide_eq_true ha)
      have hz : c.toNat ≤ 122 := UInt32.le_iff_toNat_le.mp (of_decide_eq_true hz)
      omega
  · obtain rfl := eq_of_beq hline
    decide

theorem isDigit_of_isNameStart {c : Char} (hc : isNameStart c = true) : c.isDigit = false := by
  cases hd : c.isDigit with
  | false => rfl
  | true =>
    have hs := toNat_of_isNameStart hc
    have hn : 48 ≤ c.toNat ∧ c.toNat ≤ 57 := Char.isDigit_iff_toNat.mp hd
    omega

/-- The characters that are tokens by themselves are no part of a name. -/
theorem isNamePart_of_ofChar? {c : Char} {t : Token} (h : ofChar? c = some t) :
    isNamePart c = false := by
  simp only [ofChar?] at h
  split at h <;> first | decide | cases h

theorem ofChar?_eq_none {c : Char} (hc : isNamePart c = true) : ofChar? c = none := by
  cases h : ofChar? c with
  | none => rfl
  | some t => rw [isNamePart_of_ofChar? h] at hc; cases hc

/-- The blanks lie outside the range from the first digit to the last letter. -/
theorem toNat_of_isBlank {c : Char} (hc : Text.isBlank c = true) :
    c.toNat ≤ 32 ∨ 133 ≤ c.toNat := by
  simp only [Text.isBlank, Text.blankRanges, List.any_cons, List.any_nil, Bool.or_eq_true,
    Bool.and_eq_true, decide_eq_true_eq, Bool.false_eq_true, or_false] at hc
  omega

theorem isNamePart_of_isBlank {c : Char} (hc : Text.isBlank c = true) : isNamePart c = false := by
  have hb := toNat_of_isBlank hc
  cases hp : isNamePart c with
  | false => rfl
  | true =>
    rcases isNamePart_iff.mp hp with hs | hd
    · have hs := toNat_of_isNameStart hs
      omega
    · have hn : 48 ≤ c.toNat ∧ c.toNat ≤ 57 := Char.isDigit_iff_toNat.mp hd
      omega

theorem Scanner.start_of_isNameStart {c : Char} (hc : isNameStart c = true) (toks : List Token) :
    start toks c = .ok ⟨toks, .word (String.singleton c)⟩ := by
  have hp := isNamePart_of_isNameStart hc
  have hdash : c ≠ '-' := by rintro rfl; exact absurd hp (by decide)
  simp [start, ofChar?_eq_none hp, hdash, isDigit_of_isNameStart hc, hc]

theorem Scanner.start_of_isDigit {c : Char} (hc : c.isDigit = true) (toks : List Token) :
    start toks c = .ok ⟨toks, .numeral false (String.singleton c)⟩ := by
  have hp := isNamePart_of_isDigit hc
  have hdash : c ≠ '-' := by rintro rfl; exact absurd hp (by decide)
  simp [start, ofChar?_eq_none hp, hdash, hc]

theorem Scanner.start_of_isBlank {c : Char} (hc : Text.isBlank c = true) (toks : List Token) :
    start toks c = .ok ⟨toks, .idle⟩ := by
  have hp := isNamePart_of_isBlank hc
  have hmark : ofChar? c = none := by
    cases h : ofChar? c with
    | none => rfl
    | some t =>
      simp only [ofChar?] at h
      split at h <;> first | exact absurd hc (by decide) | cases h
  have hdash : c ≠ '-' := by rintro rfl; exact absurd hc (by decide)
  have hhash : c ≠ '#' := by rintro rfl; exact absurd hc (by decide)
  simp [start, hmark, hdash, isDigit_eq_false hp, isNameStart_eq_false hp, hhash, hc]

namespace Scanner

/-- The end of a name may wait until a character that is no part of it. -/
theorem scan_word (toks : List Token) (w : String) {rest : List Char} (hr : Breaks rest) :
    scan ⟨toks, .word w⟩ rest = scan ⟨ofWord w :: toks, .idle⟩ rest := by
  cases rest with
  | nil => rfl
  | cons c cs =>
    have hc : isNamePart c = false := hr c rfl
    simp [step, hc]

theorem push_append_ofList (w : String) (c : Char) (cs : List Char) :
    w.push c ++ String.ofList cs = w ++ String.ofList (c :: cs) := by
  apply String.toList_injective
  simp

theorem singleton_append_ofList (c : Char) (cs : List Char) :
    String.singleton c ++ String.ofList cs = String.ofList (c :: cs) := by
  apply String.toList_injective
  simp

theorem scan_word_append (toks : List Token) (w : String) {cs : List Char}
    (hc : cs.all isNamePart = true) (rest : List Char) :
    scan ⟨toks, .word w⟩ (cs ++ rest) = scan ⟨toks, .word (w ++ String.ofList cs)⟩ rest := by
  induction cs generalizing w with
  | nil => simp
  | cons c cs ih =>
    simp only [List.all_cons, Bool.and_eq_true] at hc
    rw [List.cons_append, scan_cons, ← push_append_ofList, ← ih (w.push c) hc.2]
    simp [step, hc.1]

/-- The end of a numeral may wait until a character that is no part of it. -/
theorem scan_numeral {toks : List Token} {negative : Bool} {ds : String} {t : Token}
    (ht : ofNumeral negative ds = .ok t) {rest : List Char} (hr : Breaks rest) :
    scan ⟨toks, .numeral negative ds⟩ rest = scan ⟨t :: toks, .idle⟩ rest := by
  cases rest with
  | nil => simp [finish, ht, pure, Except.pure]
  | cons c cs =>
    have hc : c.isDigit = false := isDigit_eq_false (hr c rfl)
    simp [step, hc, ht]

theorem scan_numeral_append (toks : List Token) (negative : Bool) (w : String) {ds : List Char}
    (hd : ds.all Char.isDigit = true) (rest : List Char) :
    scan ⟨toks, .numeral negative w⟩ (ds ++ rest) =
      scan ⟨toks, .numeral negative (w ++ String.ofList ds)⟩ rest := by
  induction ds generalizing w with
  | nil => simp
  | cons d ds ih =>
    simp only [List.all_cons, Bool.and_eq_true] at hd
    rw [List.cons_append, scan_cons, ← push_append_ofList, ← ih (w.push d) hd.2]
    simp [step, hd.1]

end Scanner

def Reads (cs : List Char) (ts : List Token) : Prop :=
  ∀ (toks : List Token) (rest : List Char), Breaks rest →
    Scanner.scan ⟨toks, .idle⟩ (cs ++ rest) = Scanner.scan ⟨ts.reverse ++ toks, .idle⟩ rest

namespace Reads

theorem nil : Reads [] [] := fun _ _ _ => rfl

theorem append {cs ds : List Char} {ts us : List Token} (hc : Reads cs ts) (hb : Breaks ds)
    (hd : Reads ds us) : Reads (cs ++ ds) (ts ++ us) := by
  intro toks rest hr
  rw [List.append_assoc, hc toks (ds ++ rest) (hb.append hr), hd _ rest hr, List.reverse_append,
    List.append_assoc]

/-- A character that is a token by itself may stand before any text. -/
theorem mark {c : Char} {t : Token} (ht : ofChar? c = some t) {cs : List Char} {ts : List Token}
    (h : Reads cs ts) : Reads (c :: cs) (t :: ts) := by
  intro toks rest hr
  have hs : Scanner.start toks c = .ok ⟨t :: toks, .idle⟩ := by simp only [Scanner.start, ht]
  simp [Scanner.step, hs, h (t :: toks) rest hr]

/-- A blank may stand before any text. -/
theorem blank {c : Char} (hc : Text.isBlank c = true) {cs : List Char} {ts : List Token}
    (h : Reads cs ts) : Reads (c :: cs) ts := by
  intro toks rest hr
  simp [Scanner.step, Scanner.start_of_isBlank hc, h toks rest hr]

theorem space {cs : List Char} {ts : List Token} (h : Reads cs ts) : Reads (' ' :: cs) ts :=
  h.blank rfl

theorem arrow {cs : List Char} {ts : List Token} (h : Reads cs ts) :
    Reads ('-' :: '>' :: cs) (.arrow :: ts) := by
  intro toks rest hr
  have hs : Scanner.start toks '-' = .ok ⟨toks, .dash⟩ := rfl
  simp [Scanner.step, hs, h (Token.arrow :: toks) rest hr]

end Reads

def IsWord (w : String) : Prop :=
  ∃ c cs, w.toList = c :: cs ∧ isNameStart c = true ∧ cs.all isNamePart = true

theorem IsWord.push {w : String} (hw : IsWord w) {c : Char} (hc : isNamePart c = true) :
    IsWord (w.push c) := by
  obtain ⟨d, ds, hl, hd, hds⟩ := hw
  exact ⟨d, ds ++ [c], by simp [hl], hd, by simp only [List.all_append, List.all_cons, List.all_nil,
    hds, hc, Bool.and_self]⟩

/-- The identifiers are the words other than the keyword. -/
theorem isIdentifier_iff_isWord {w : String} :
    isIdentifier w = true ↔ IsWord w ∧ w ≠ keyword := by
  cases hl : w.toList with
  | nil => simp [isIdentifier, IsWord, hl]
  | cons c cs => simp [isIdentifier, IsWord, hl]

/-- A word reads as the keyword or as a name. -/
theorem reads_word {w : String} (hw : IsWord w) : Reads w.toList [ofWord w] := by
  intro toks rest hr
  obtain ⟨c, cs, hl, hc, hcs⟩ := hw
  have hw : String.singleton c ++ String.ofList cs = w := by
    rw [Scanner.singleton_append_ofList, ← hl, String.ofList_toList]
  rw [hl, List.cons_append, Scanner.scan_cons, Scanner.step, Scanner.start_of_isNameStart hc,
    ok_bind, Scanner.scan_word_append toks _ hcs, hw, Scanner.scan_word toks w hr]
  rfl

/-- An identifier reads as itself. -/
theorem reads_ident {x : String} (hx : isIdentifier x = true) : Reads x.toList [.ident x] := by
  obtain ⟨hw, hk⟩ := isIdentifier_iff_isWord.mp hx
  have hr := reads_word hw
  rwa [ofWord, if_neg hk] at hr

/-- A run of digits, after a minus sign or not, is kept as a numeral until it ends. -/
theorem Scanner.scan_digits (toks : List Token) {negative : Bool} {ds : List Char} (hne : ds ≠ [])
    (hd : ds.all Char.isDigit = true) (rest : List Char) :
    scan ⟨toks, .idle⟩ ((if negative then '-' :: ds else ds) ++ rest) =
      scan ⟨toks, .numeral negative (String.ofList ds)⟩ rest := by
  obtain ⟨d, ds, rfl⟩ := List.exists_cons_of_ne_nil hne
  simp only [List.all_cons, Bool.and_eq_true] at hd
  rw [← singleton_append_ofList, ← scan_numeral_append toks negative _ hd.2]
  cases negative with
  | false => simp [step, start_of_isDigit hd.1]
  | true =>
    -- A dash could still be the first half of an arrow. The digit after it decides.
    have hs : start toks '-' = .ok ⟨toks, .dash⟩ := rfl
    have hgt : d ≠ '>' := by rintro rfl; exact absurd hd.1 (by decide)
    simp [step, hs, hgt, hd.1]

/-- A run of digits, after a minus sign or not, reads as its value. -/
theorem reads_numeral {negative : Bool} {ds : List Char} {t : Token} (hne : ds ≠ [])
    (hd : ds.all Char.isDigit = true) (ht : ofNumeral negative (String.ofList ds) = .ok t) :
    Reads (if negative then '-' :: ds else ds) [t] := by
  intro toks rest hr
  rw [Scanner.scan_digits toks hne hd, Scanner.scan_numeral ht hr]
  rfl

def padded (zeros : Nat) (n : Int) : List Char :=
  (if n < 0 then ['-'] else []) ++ List.replicate zeros '0' ++ Text.Decimal.digits n.natAbs

/-- A 64-bit integer reads as itself. Leading zeros make no difference. -/
theorem reads_padded (zeros : Nat) (n : Int64) : Reads (padded zeros n.toInt) [.int n] := by
  have hne : List.replicate zeros '0' ++ Text.Decimal.digits n.toInt.natAbs ≠ [] :=
    List.append_ne_nil_of_right_ne_nil _ (Text.Decimal.digits_ne_nil _)
  have hd : (List.replicate zeros '0' ++ Text.Decimal.digits n.toInt.natAbs).all Char.isDigit =
      true := by
    apply List.all_eq_true.mpr
    intro c hc
    rcases List.mem_append.mp hc with hc | hc
    · rw [List.eq_of_mem_replicate hc]
      rfl
    · exact Text.Decimal.isDigit_of_mem_digits hc
  have hvalue : Text.Decimal.value (List.replicate zeros '0' ++
      Text.Decimal.digits n.toInt.natAbs) = n.toInt.natAbs := by
    rw [Text.Decimal.value, Nat.ofDigitChars_append, Nat.ofDigitChars_replicate_zero, Nat.mul_zero]
    exact Text.Decimal.value_digits _
  have ht : ofNumeral (decide (n.toInt < 0)) (String.ofList (List.replicate zeros '0' ++
      Text.Decimal.digits n.toInt.natAbs)) = .ok (.int n) := by
    have hv : (if n.toInt < 0 then -(n.toInt.natAbs : Int) else n.toInt.natAbs) = n.toInt := by
      split <;> omega
    simp only [ofNumeral, String.toList_ofList, hvalue, decide_eq_true_eq, hv,
      Text.Decimal.toWord?_toInt]
  have hr := reads_numeral hne hd ht
  by_cases hn : n.toInt < 0
  · simpa [padded, hn] using hr
  · simpa [padded, hn] using hr

theorem reads_int (n : Int64) : Reads (Text.Decimal.ofInt n.toInt).toList [.int n] := by
  have hp : (Text.Decimal.ofInt n.toInt).toList = padded 0 n.toInt := by
    by_cases hn : n.toInt < 0
    · simp [padded, Text.Decimal.ofInt, Text.Decimal.ofNat, hn]
    · simp [padded, Text.Decimal.ofInt, Text.Decimal.ofNat, hn]
  rw [hp]
  exact reads_padded 0 n

/-- A text that reads as tokens has these tokens. -/
theorem tokenize_of_reads {text : String} {ts : List Token} (h : Reads text.toList ts) :
    tokenize text = .ok (ts ++ [.eof]) := by
  have hs := h [] [] Breaks.nil
  rw [List.append_nil] at hs
  rw [Scanner.tokenize_eq_scan, hs]
  simp [Scanner.finish, Except.map]

def Spelled (ts : List Token) : Prop := ∀ x, .ident x ∈ ts → isIdentifier x = true

theorem spelled_nil : Spelled [] := fun _ hx => absurd hx List.not_mem_nil

theorem Spelled.append {ts us : List Token} (ht : Spelled ts) (hu : Spelled us) :
    Spelled (ts ++ us) := by
  intro x hx
  rcases List.mem_append.mp hx with hx | hx
  · exact ht x hx
  · exact hu x hx

theorem Spelled.cons {t : Token} {ts : List Token} (ht : ∀ x, t = .ident x → isIdentifier x = true)
    (h : Spelled ts) : Spelled (t :: ts) := by
  intro x hx
  rcases List.mem_cons.mp hx with he | hx
  · exact ht x he.symm
  · exact h x hx

theorem Spelled.ofWord {w : String} (hw : IsWord w) {ts : List Token} (h : Spelled ts) :
    Spelled (ofWord w :: ts) := by
  apply h.cons
  intro x hx
  unfold Token.ofWord at hx
  split at hx
  · cases hx
  · next hk => cases hx; exact isIdentifier_iff_isWord.mpr ⟨hw, hk⟩

theorem Spelled.ofNumeral {negative : Bool} {ds : String} {t : Token}
    (ht : ofNumeral negative ds = .ok t) {ts : List Token} (h : Spelled ts) :
    Spelled (t :: ts) := by
  apply h.cons
  rintro x rfl
  simp only [Token.ofNumeral] at ht
  split at ht <;> cases ht

namespace Scanner

structure WellSpelled (s : Scanner) : Prop where
  tokens : Spelled s.tokens
  pending : ∀ w, s.pending = .word w → IsWord w

theorem WellSpelled.init : ({} : Scanner).WellSpelled where
  tokens := spelled_nil
  pending := fun _ hw => by cases hw

theorem WellSpelled.start {toks : List Token} (ht : Spelled toks) {c : Char} {s : Scanner}
    (h : start toks c = .ok s) : s.WellSpelled := by
  unfold Scanner.start at h
  split at h
  · next t hc =>
    cases h
    refine ⟨ht.cons ?_, nofun⟩
    rintro x rfl
    simp only [ofChar?] at hc
    split at hc <;> cases hc
  · repeat' split at h
    · cases h; exact ⟨ht, nofun⟩
    · cases h; exact ⟨ht, nofun⟩
    · next hc =>
      cases h
      refine ⟨ht, ?_⟩
      rintro w ⟨⟩
      exact ⟨c, [], by simp, hc, rfl⟩
    · cases h; exact ⟨ht, nofun⟩
    · cases h; exact ⟨ht, nofun⟩
    · cases h

theorem WellSpelled.step {s t : Scanner} (hs : s.WellSpelled) {c : Char}
    (h : s.step c = .ok t) : t.WellSpelled := by
  obtain ⟨toks, pending⟩ := s
  cases pending with
  | idle => exact WellSpelled.start hs.tokens h
  | comment =>
    cases h
    refine ⟨hs.tokens, fun w hw => ?_⟩
    dsimp only at hw
    split at hw <;> cases hw
  | dash =>
    simp only [Scanner.step] at h
    repeat' split at h
    · cases h; exact ⟨hs.tokens.cons nofun, nofun⟩
    · cases h; exact ⟨hs.tokens, nofun⟩
    · cases h
  | numeral negative ds =>
    simp only [Scanner.step] at h
    split at h
    · cases h; exact ⟨hs.tokens, nofun⟩
    · obtain ⟨n, hn, h⟩ := except_bind_eq_ok_iff.mp h
      exact WellSpelled.start (hs.tokens.ofNumeral hn) h
  | word w =>
    simp only [Scanner.step] at h
    split at h
    · next hc =>
      cases h
      refine ⟨hs.tokens, ?_⟩
      rintro v ⟨⟩
      exact (hs.pending w rfl).push hc
    · exact WellSpelled.start (hs.tokens.ofWord (hs.pending w rfl)) h

theorem WellSpelled.finish {s : Scanner} (hs : s.WellSpelled) {ts : List Token}
    (h : s.finish = .ok ts) : Spelled ts := by
  obtain ⟨toks, pending⟩ := s
  cases pending with
  | idle | comment => cases h; exact hs.tokens
  | dash => cases h
  | numeral negative ds =>
    obtain ⟨n, hn, h⟩ := except_bind_eq_ok_iff.mp h
    cases h
    exact hs.tokens.ofNumeral hn
  | word w => cases h; exact hs.tokens.ofWord (hs.pending w rfl)

theorem WellSpelled.scan {s : Scanner} (hs : s.WellSpelled) {cs : List Char} {ts : List Token}
    (h : s.scan cs = .ok ts) : Spelled ts := by
  induction cs generalizing s with
  | nil => exact hs.finish h
  | cons c cs ih =>
    rw [scan_cons] at h
    obtain ⟨t, ht, h⟩ := except_bind_eq_ok_iff.mp h
    exact ih (hs.step ht) h

end Scanner

/-- The scanner finds no names but identifiers. -/
theorem spelled_of_tokenize {text : String} {ts : List Token} (h : tokenize text = .ok ts) :
    Spelled ts := by
  rw [Scanner.tokenize_eq_scan] at h
  cases hs : Scanner.scan {} text.toList with
  | error e => rw [hs] at h; cases h
  | ok us =>
    rw [hs] at h
    cases h
    have hu : Spelled us := Scanner.WellSpelled.init.scan hs
    intro x hx
    simp only [List.mem_append, List.mem_reverse, List.mem_singleton, reduceCtorEq, or_false] at hx
    exact hu x hx

end Token

/-- The identifiers are the texts that are scanned as one name, which is the text itself. No other
text is ever scanned as a name. -/
theorem isIdentifier_agrees_with_tokenize :
    (∀ text, isIdentifier text = true ↔ tokenize text = .ok [.ident text, .eof]) ∧
      ∀ text ts x, tokenize text = .ok ts → .ident x ∈ ts → isIdentifier x = true := by
  have hscanned (text : String) (ts : List Token) (x : String) (ht : tokenize text = .ok ts)
      (hx : .ident x ∈ ts) : isIdentifier x = true :=
    Token.spelled_of_tokenize ht x hx
  refine ⟨fun text => ⟨fun h => ?_, fun h => ?_⟩, hscanned⟩
  · exact Token.tokenize_of_reads (Token.reads_ident h)
  · exact hscanned text _ text h List.mem_cons_self

/-- A name that begins with the keyword, and names next to characters that are no part of them. -/
theorem isIdentifier_agrees_with_tokenize_adjacent :
    isIdentifier "lambda_" = true ∧ tokenize "lambda_" = .ok [.ident "lambda_", .eof] ∧
      tokenize "λ_0->-7x#y" = .ok [.lambda, .ident "_0", .arrow, .int (-7), .ident "x", .eof] ∧
      isIdentifier "_0" = true ∧ isIdentifier "x" = true := by
  obtain ⟨hiff, hscanned⟩ := isIdentifier_agrees_with_tokenize
  have hname : isIdentifier "lambda_" = true := by decide
  have htokens : tokenize "λ_0->-7x#y" =
      .ok [.lambda, .ident "_0", .arrow, .int (-7), .ident "x", .eof] := by rfl
  refine ⟨hname, (hiff _).mp hname, htokens, hscanned _ _ _ htokens ?_, hscanned _ _ _ htokens ?_⟩
  · simp
  · simp

end Curried
