namespace Curried

namespace Text

def blankRanges : List (Nat × Nat) :=
  [(0x0009, 0x000D), (0x0020, 0x0020), (0x0085, 0x0085), (0x00A0, 0x00A0), (0x1680, 0x1680),
   (0x2000, 0x200A), (0x2028, 0x2029), (0x202F, 0x202F), (0x205F, 0x205F), (0x3000, 0x3000)]

def isBlank (c : Char) : Bool :=
  blankRanges.any fun (lo, hi) => lo ≤ c.toNat && c.toNat ≤ hi

end Text

namespace Text.Decimal

def digits (n : Nat) : List Char := Nat.toDigits 10 n

def value (ds : List Char) : Nat := Nat.ofDigitChars 10 ds 0

theorem value_digits (n : Nat) : value (digits n) = n :=
  Nat.ofDigitChars_toDigits (by decide) (by decide)

theorem isDigit_of_mem_digits {n : Nat} {c : Char} (hc : c ∈ digits n) : c.isDigit = true :=
  Nat.isDigit_of_mem_toDigits (by decide) (by decide) hc

def isShortest (ds : List Char) : Bool :=
  !ds.isEmpty && ds.all Char.isDigit && (ds.length == 1 || ds.head? != some '0')

def ofNat (n : Nat) : String := String.ofList (digits n)

def ofInt (n : Int) : String :=
  if n < 0 then "-" ++ ofNat n.natAbs else ofNat n.natAbs

/-- An integer as a 64-bit word, if it lies between -2^63 and 2^63 - 1. -/
def toWord? (n : Int) : Option Int64 :=
  if Int64.minValue.toInt ≤ n ∧ n ≤ Int64.maxValue.toInt then some (Int64.ofInt n) else none

end Text.Decimal

inductive Token where
  | lambda
  | arrow
  | colon
  | comma
  | openParen
  | closeParen
  | ident (name : String)
  | int (value : Int64)
  | eof
deriving DecidableEq, Inhabited

namespace Token

/-- How diagnostics show a token. Names are ASCII, so nothing inside the quotes needs an escape. -/
def describe : Token → String
  | lambda => "Lambda"
  | arrow => "Arrow"
  | colon => "Colon"
  | comma => "Comma"
  | openParen => "LParen"
  | closeParen => "RParen"
  | ident name => "Ident(\"" ++ name ++ "\")"
  | int value => "Int(" ++ Text.Decimal.ofInt value.toInt ++ ")"
  | eof => "Eof"

def keyword : String := "lambda"

def isNameStart (c : Char) : Bool := c.isAlpha || c == '_'

def isNamePart (c : Char) : Bool := c.isAlphanum || c == '_'

def ofWord (word : String) : Token :=
  if word = keyword then lambda else ident word

def ofChar? : Char → Option Token
  | 'λ' | '\\' => some lambda
  | ':' => some colon
  | ',' => some comma
  | '(' => some openParen
  | ')' => some closeParen
  | _ => none

end Token

def isIdentifier (text : String) : Bool :=
  match text.toList with
  | [] => false
  | c :: cs => Token.isNameStart c && cs.all Token.isNamePart && text != Token.keyword

inductive ScanError where
  | unexpected (c : Char)
  | outOfRange (numeral : String)
deriving DecidableEq

def ScanError.message : ScanError → String
  | unexpected c => "Unexpected character: '" ++ String.singleton c ++ "'"
  | outOfRange numeral => "Invalid number: " ++ numeral

namespace Token

/-- The lexeme being read. After a `dash` the next character decides between arrow and numeral. -/
inductive Pending where
  | idle
  | dash
  | numeral (negative : Bool) (digits : String)
  | word (name : String)
  | comment
deriving DecidableEq

def ofNumeral (negative : Bool) (digits : String) : Except ScanError Token :=
  let n : Int := Text.Decimal.value digits.toList
  match Text.Decimal.toWord? (if negative then -n else n) with
  | some w => .ok (int w)
  | none => .error (.outOfRange (if negative then "-" ++ digits else digits))

structure Scanner where
  tokens : List Token := []
  pending : Pending := .idle

namespace Scanner

def start (tokens : List Token) (c : Char) : Except ScanError Scanner :=
  match ofChar? c with
  | some t => .ok ⟨t :: tokens, .idle⟩
  | none =>
    if c = '-' then .ok ⟨tokens, .dash⟩
    else if c.isDigit then .ok ⟨tokens, .numeral false (String.singleton c)⟩
    else if isNameStart c then .ok ⟨tokens, .word (String.singleton c)⟩
    else if c = '#' then .ok ⟨tokens, .comment⟩
    else if Text.isBlank c then .ok ⟨tokens, .idle⟩
    else .error (.unexpected c)

def step : Scanner → Char → Except ScanError Scanner
  | ⟨tokens, .idle⟩, c => start tokens c
  | ⟨tokens, .comment⟩, c => .ok ⟨tokens, if c = '\n' then .idle else .comment⟩
  | ⟨tokens, .dash⟩, c =>
    if c = '>' then .ok ⟨arrow :: tokens, .idle⟩
    else if c.isDigit then .ok ⟨tokens, .numeral true (String.singleton c)⟩
    else .error (.unexpected '-')
  | ⟨tokens, .numeral negative digits⟩, c =>
    if c.isDigit then .ok ⟨tokens, .numeral negative (digits.push c)⟩
    else do start ((← ofNumeral negative digits) :: tokens) c
  | ⟨tokens, .word name⟩, c =>
    if isNamePart c then .ok ⟨tokens, .word (name.push c)⟩
    else start (ofWord name :: tokens) c

def finish : Scanner → Except ScanError (List Token)
  | ⟨tokens, .idle⟩ | ⟨tokens, .comment⟩ => .ok tokens
  | ⟨_, .dash⟩ => .error (.unexpected '-')
  | ⟨tokens, .numeral negative digits⟩ => return (← ofNumeral negative digits) :: tokens
  | ⟨tokens, .word name⟩ => .ok (ofWord name :: tokens)

end Scanner

end Token

def tokenize (text : String) : Except ScanError (List Token) := do
  let scanner ← text.toList.foldlM Token.Scanner.step {}
  return (.eof :: (← scanner.finish)).reverse

end Curried
