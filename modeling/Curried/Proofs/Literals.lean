import Curried.Proofs.Scan
import Mathlib.Data.List.Induction
import Mathlib.Data.Nat.Digits.Defs

namespace Curried

namespace Text.Decimal

def placeValue (ds : List Char) : Nat :=
  Nat.ofDigits 10 (ds.reverse.map fun c => c.toNat - '0'.toNat)

def signed (negative : Bool) (ds : List Char) : Int :=
  if negative then -(placeValue ds) else placeValue ds

theorem placeValue_concat (ds : List Char) (c : Char) :
    placeValue (ds ++ [c]) = (c.toNat - '0'.toNat) + 10 * placeValue ds := by
  rw [placeValue, List.reverse_concat, List.map_cons, Nat.ofDigits_cons]
  rfl

/-- Reading digits from the first one on gives each of them its place. -/
theorem value_eq_placeValue (ds : List Char) : value ds = placeValue ds := by
  induction ds using List.reverseRecOn with
  | nil => rfl
  | append_singleton ds c ih =>
    rw [placeValue_concat, ← ih, value, Nat.ofDigitChars_append, Nat.ofDigitChars_cons,
      Nat.ofDigitChars_nil, Nat.add_comm]
    rfl

theorem toWord?_eq_none {n : Int} (h : n < -2 ^ 63 ∨ 2 ^ 63 - 1 < n) : toWord? n = none := by
  have hmin : Int64.minValue.toInt = -2 ^ 63 := rfl
  have hmax : Int64.maxValue.toInt = 2 ^ 63 - 1 := rfl
  rw [toWord?, hmin, hmax]
  apply if_neg
  omega

end Text.Decimal

namespace Token

open Text.Decimal

variable {negative : Bool} {digits : String}

theorem ofNumeral_eq_ok {n : Int64} (h : n.toInt = signed negative digits.toList) :
    ofNumeral negative digits = .ok (.int n) := by
  have hw := toWord?_toInt n
  rw [h, signed, ← value_eq_placeValue] at hw
  simp only [ofNumeral, hw]

theorem ofNumeral_eq_error (h : toWord? (signed negative digits.toList) = none) :
    ofNumeral negative digits =
      .error (.outOfRange (if negative then "-" ++ digits else digits)) := by
  rw [signed, ← value_eq_placeValue] at h
  simp only [ofNumeral, h]

/-- Nothing stands behind the digits of a literal, so the end of the text ends them. -/
theorem tokenize_numeral (hne : digits ≠ "") (hd : ∀ c ∈ digits.toList, c.isDigit = true) :
    tokenize (if negative then "-" ++ digits else digits) =
      (ofNumeral negative digits).map fun t => [t, .eof] := by
  have hlist : (if negative then "-" ++ digits else digits).toList =
      if negative then '-' :: digits.toList else digits.toList := by
    cases negative with
    | false => rfl
    | true => simp
  have hnil : digits.toList ≠ [] := fun h => hne (String.toList_eq_nil_iff.mp h)
  have hall : digits.toList.all Char.isDigit = true := List.all_eq_true.mpr hd
  rw [Scanner.tokenize_eq_scan, hlist, ← List.append_nil (ite ..), Scanner.scan_digits [] hnil hall,
    String.ofList_toList, Scanner.scan_nil, Scanner.finish]
  cases ofNumeral negative digits <;> rfl

end Token

/-- A literal of any length is scanned as the integer that it denotes if this lies between -2^63 and
2^63 - 1, and else fails as out of range. -/
theorem tokenize_int_literal (negative : Bool) {digits : String} (hne : digits ≠ "")
    (hd : ∀ c ∈ digits.toList, c.isDigit = true) :
    let text := if negative then "-" ++ digits else digits
    let v := Text.Decimal.signed negative digits.toList
    (-2 ^ 63 ≤ v ∧ v ≤ 2 ^ 63 - 1 →
      ∃ n : Int64, n.toInt = v ∧ tokenize text = .ok [.int n, .eof]) ∧
    (v < -2 ^ 63 ∨ 2 ^ 63 - 1 < v → tokenize text = .error (.outOfRange text)) := by
  intro text v
  have htokens : tokenize text = (Token.ofNumeral negative digits).map fun t => [t, .eof] :=
    Token.tokenize_numeral hne hd
  constructor
  · rintro ⟨hmin, hmax⟩
    have hv : (Int64.ofInt v).toInt = v := Int64.toInt_ofInt_of_le hmin (by omega)
    refine ⟨Int64.ofInt v, hv, ?_⟩
    rw [htokens, Token.ofNumeral_eq_ok hv]
    rfl
  · intro hout
    have hw : Text.Decimal.toWord? v = none := Text.Decimal.toWord?_eq_none hout
    rw [htokens, Token.ofNumeral_eq_error hw]
    rfl

/-- The least integer behind leading zeros. Without the sign its digits are out of range. -/
theorem tokenize_int_literal_least :
    tokenize "-009223372036854775808" = .ok [.int Int64.minValue, .eof] ∧
      tokenize "009223372036854775808" = .error (.outOfRange "009223372036854775808") := by
  have hne : "009223372036854775808" ≠ "" := by decide
  have hd : ∀ c ∈ "009223372036854775808".toList, c.isDigit = true :=
    List.all_eq_true.mp (by rfl)
  have hvalue : Text.Decimal.placeValue "009223372036854775808".toList = 2 ^ 63 := by rfl
  obtain ⟨hleast, -⟩ := tokenize_int_literal true hne hd
  obtain ⟨-, hbeyond⟩ := tokenize_int_literal false hne hd
  simp only [Text.Decimal.signed, hvalue] at hleast hbeyond
  obtain ⟨n, hn, htokens⟩ := hleast (by decide)
  have hmin : n = Int64.minValue := Int64.toInt_inj.mp hn
  refine ⟨?_, hbeyond (by decide)⟩
  rwa [hmin] at htokens

end Curried
