import Curried.Term
import Curried.Token

namespace Curried

namespace Text.Decimal

/-- A numeral of two or more digits is that of the tenth part and a last digit. -/
theorem digits_of_ten_le {n : Nat} (hn : 10 ≤ n) :
    digits n = digits (n / 10) ++ [Nat.digitChar (n % 10)] :=
  Nat.toDigits_of_base_le (by decide) hn

theorem digits_ne_nil (n : Nat) : digits n ≠ [] := Nat.toDigits_ne_nil

theorem head?_digits_ne_zero {n : Nat} (hn : 0 < n) : (digits n).head? ≠ some '0' := by
  induction n using Nat.strongRecOn with
  | ind n ih =>
    by_cases h : n < 10
    · have hd : digits n = [Nat.digitChar n] := Nat.toDigits_of_lt_base h
      rw [hd]
      have hs : ∀ m < 10, 0 < m → [Nat.digitChar m].head? ≠ some '0' := by decide
      exact hs n h hn
    · obtain ⟨c, cs, hc⟩ := List.exists_cons_of_ne_nil (digits_ne_nil (n / 10))
      have hi := ih (n / 10) (by omega) (by omega)
      rw [digits_of_ten_le (by omega), hc]
      rwa [hc] at hi

theorem isShortest_digits (n : Nat) : isShortest (digits n) = true := by
  have hall : (digits n).all Char.isDigit = true :=
    List.all_eq_true.mpr fun _ hc => isDigit_of_mem_digits hc
  have hlead : (digits n).length = 1 ∨ (digits n).head? ≠ some '0' := by
    rcases Nat.eq_zero_or_pos n with rfl | hn
    · exact .inl (by decide)
    · exact .inr (head?_digits_ne_zero hn)
  simp only [isShortest, hall, Bool.and_true, Bool.and_eq_true, Bool.not_eq_true',
    List.isEmpty_eq_false_iff, Bool.or_eq_true, beq_iff_eq, bne_iff_ne]
  exact ⟨digits_ne_nil n, hlead⟩

theorem exists_digitChar {c : Char} (h : c.isDigit = true) : ∃ d < 10, c = Nat.digitChar d := by
  have hc : 48 ≤ c.toNat ∧ c.toNat ≤ 57 := Char.isDigit_iff_toNat.mp h
  have hd : ∀ d < 10, Char.ofNat (48 + d) = Nat.digitChar d := by decide
  refine ⟨c.toNat - 48, by omega, ?_⟩
  rw [← hd (c.toNat - 48) (by omega), Nat.add_sub_cancel' hc.1, Char.ofNat_toNat]

/-- Digits put behind a number are put behind its numeral, unless the number is zero. -/
theorem digits_ofDigitChars {ds : List Char} (h : ∀ c ∈ ds, c.isDigit = true) {n : Nat}
    (hn : 0 < n) : digits (Nat.ofDigitChars 10 ds n) = digits n ++ ds := by
  induction ds generalizing n with
  | nil => simp
  | cons c ds ih =>
    obtain ⟨hc, hds⟩ := List.forall_mem_cons.mp h
    obtain ⟨d, hd, rfl⟩ := exists_digitChar hc
    have hlast : digits (10 * n + d) = digits n ++ [Nat.digitChar d] := by
      rw [digits, ← Nat.toDigits_append_toDigits (by decide) hn hd, Nat.toDigits_of_lt_base hd]
      rfl
    rw [Nat.ofDigitChars_cons_digitChar_of_lt_ten hd, ih hds (by omega), hlast, List.append_assoc]
    rfl

/-- A shortest run of digits is the numeral of its value. -/
theorem digits_value {ds : List Char} (h : isShortest ds = true) : digits (value ds) = ds := by
  cases ds with
  | nil => cases h
  | cons c ds =>
    simp only [isShortest, Bool.and_eq_true, List.all_eq_true, Bool.or_eq_true, beq_iff_eq,
      bne_iff_ne] at h
    obtain ⟨⟨-, hall⟩, hlead⟩ := h
    obtain ⟨hc, hds⟩ := List.forall_mem_cons.mp hall
    obtain ⟨d, hd, rfl⟩ := exists_digitChar hc
    have hone : digits d = [Nat.digitChar d] := Nat.toDigits_of_lt_base hd
    rw [value, Nat.ofDigitChars_cons_digitChar_of_lt_ten hd, Nat.mul_zero, Nat.zero_add]
    rcases Nat.eq_zero_or_pos d with rfl | hpos
    · -- Nothing follows a leading zero.
      have hnil : ds = [] := by simpa using hlead
      rw [hnil]
      exact hone
    · rw [digits_ofDigitChars hds hpos, hone]
      rfl

end Text.Decimal

namespace Ident

theorem toList_name (x : Ident) :
    x.name.toList = 'x' :: Text.Decimal.digits x.index.toNat := by
  simp [name, Text.Decimal.ofNat]

@[simp] theorem ofName?_name (x : Ident) : ofName? x.name = some x := by
  have hlt : x.index.toNat < UInt64.size := x.index.toNat_lt
  simp [ofName?, toList_name, Text.Decimal.isShortest_digits, Text.Decimal.value_digits, hlt]

theorem name_injective : Function.Injective name := by
  intro x y h
  have hx := ofName?_name x
  rw [h, ofName?_name] at hx
  exact (Option.some.inj hx).symm

@[simp] theorem name_inj {x y : Ident} : x.name = y.name ↔ x = y := name_injective.eq_iff

/-- What is read as an identifier is its name. -/
theorem name_of_ofName? {text : String} {x : Ident} (h : ofName? text = some x) :
    x.name = text := by
  simp only [ofName?] at h
  split at h
  · next ds hds =>
    split at h
    · next hc =>
      cases h
      simp only [Bool.and_eq_true, decide_eq_true_eq] at hc
      rw [← String.toList_inj, toList_name, hds, UInt64.toNat_ofNat_of_lt' hc.2,
        Text.Decimal.digits_value hc.1]
    · cases h
  · cases h

/-- A text is read as the identifier that it is the name of, and as none otherwise. -/
theorem ofName_eq_some_iff (text : String) (i : UInt64) :
    ofName? text = some ⟨i⟩ ↔ text = name ⟨i⟩ := by
  constructor
  · intro h
    exact (name_of_ofName? h).symm
  · rintro rfl
    exact ofName?_name ⟨i⟩

example :
    ofName? "x18446744073709551615" = some ⟨18446744073709551615⟩ ∧
      ofName? "x18446744073709551616" = none ∧ ofName? "x00" = none ∧ ofName? "x+1" = none := by
  decide

/-- A name of no identifier differs from the names of all. -/
theorem name_ne_of_ofName?_eq_none {text : String} (h : ofName? text = none) (x : Ident) :
    x.name ≠ text := by
  intro he
  rw [← he, ofName?_name] at h
  cases h

/-- A text that is read as one of some identifiers is the name of one of them. -/
theorem any_ofName?_iff {xs : List Ident} {text : String} :
    (ofName? text).any (· ∈ xs) = true ↔ ∃ x ∈ xs, x.name = text := by
  cases h : ofName? text with
  | none => simpa using fun x _ => name_ne_of_ofName?_eq_none h x
  | some y =>
    obtain rfl := name_of_ofName? h
    simp

theorem forall_name_ne_iff {xs : List Ident} {text : String} :
    (∀ x ∈ xs, x.name ≠ text) ↔ ∀ x, ofName? text = some x → x ∉ xs := by
  constructor
  · intro h x hx hm
    exact h x hm (name_of_ofName? hx)
  · rintro h x hm rfl
    exact h x (ofName?_name x) hm

@[simp] theorem isIdentifier_name (x : Ident) : isIdentifier x.name = true := by
  have hparts : (Text.Decimal.digits x.index.toNat).all Token.isNamePart = true := by
    apply List.all_eq_true.mpr
    intro c hc
    have hd : c.isDigit = true := Text.Decimal.isDigit_of_mem_digits hc
    simp [Token.isNamePart, Char.isAlphanum, hd]
  have hkey : x.name ≠ Token.keyword := by
    intro he
    have hl := congrArg String.toList he
    rw [toList_name] at hl
    have hc : 'x' = 'l' := (List.cons.inj hl).1
    exact absurd hc (by decide)
  simp only [isIdentifier, toList_name, hparts, Bool.and_true, Bool.and_eq_true, bne_iff_ne]
  exact ⟨by decide, hkey⟩

end Ident

end Curried
