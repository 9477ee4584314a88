import Curried.Expr

namespace Curried

namespace Grammar

inductive Params : List Token → List String → Prop
  | one (x : String) : Params [.ident x] [x]
  | more (x : String) {ts : List Token} {xs : List String} :
      Params ts xs → Params (.ident x :: .comma :: ts) (x :: xs)

inductive ParamList : List Token → List String → Prop
  | empty : ParamList [] []
  | names {ts : List Token} {xs : List String} : Params ts xs → ParamList ts xs

mutual
inductive IsExpr : List Token → Expr → Prop
  | keyword {ps ts : List Token} {xs : List String} {b : Expr} :
      ParamList ps xs → IsExpr ts b → IsExpr (.lambda :: ps ++ .colon :: ts) (.lam xs b)
  | arrow (x : String) {ts : List Token} {b : Expr} :
      IsExpr ts b → IsExpr (.ident x :: .arrow :: ts) (.lam [x] b)
  | arrows {ps ts : List Token} {xs : List String} {b : Expr} :
      ParamList ps xs → IsExpr ts b →
        IsExpr (.openParen :: ps ++ .closeParen :: .arrow :: ts) (.lam xs b)
  | calls {ts : List Token} {e : Expr} : IsCalls ts e → IsExpr ts e
inductive IsCalls : List Token → Expr → Prop
  | atom {ts : List Token} {e : Expr} : IsAtom ts e → IsCalls ts e
  | call {ts as : List Token} {f : Expr} {es : List Expr} :
      IsCalls ts f → IsArgList as es →
        IsCalls (ts ++ .openParen :: as ++ [.closeParen]) (.call f es)
inductive IsArgList : List Token → List Expr → Prop
  | empty : IsArgList [] []
  | args {ts : List Token} {es : List Expr} : IsArgs ts es → IsArgList ts es
inductive IsArgs : List Token → List Expr → Prop
  | one {ts : List Token} {e : Expr} : IsExpr ts e → IsArgs ts [e]
  | more {ts us : List Token} {e : Expr} {es : List Expr} :
      IsExpr ts e → IsArgs us es → IsArgs (ts ++ .comma :: us) (e :: es)
inductive IsAtom : List Token → Expr → Prop
  | name (x : String) : IsAtom [.ident x] (.name x)
  | int (n : Int64) : IsAtom [.int n] (.int n)
  | group {ts : List Token} {e : Expr} :
      IsExpr ts e → IsAtom (.openParen :: ts ++ [.closeParen]) e
end

end Grammar

namespace Parse

inductive Wanted where
  | expression
  | parameterName
  | colon
  | closeParen
  | closeParenOrComma
deriving DecidableEq

def Wanted.describe : Wanted → String
  | expression => "expression"
  | parameterName => "parameter name"
  | colon => "':'"
  | closeParen => "')'"
  | closeParenOrComma => "')' or ','"

/-- Where parsing stopped: the tokens left, and what was wanted instead of the first of them. An
expression that should begin where the tokens end is `missing`. -/
inductive Stop where
  | unexpected (wanted : Wanted) (rest : List Token)
  | missing (rest : List Token)

def expect (t : Token) (wanted : Wanted) : List Token → Except Stop (List Token)
  | [] => .error (.unexpected wanted [])
  | u :: rest => if u = t then .ok rest else .error (.unexpected wanted (u :: rest))

def params : List Token → Except Stop (List String × List Token)
  | .ident x :: .comma :: rest => do
    let (xs, rest) ← params rest
    return (x :: xs, rest)
  | .ident x :: rest => .ok ([x], rest)
  | ts => .error (.unexpected .parameterName ts)

def keywordParams : List Token → Except Stop (List String × List Token)
  | .colon :: rest => .ok ([], rest)
  | ts => do
    let (xs, rest) ← params ts
    return (xs, ← expect .colon .colon rest)

def arrowNames? : List Token → Option (List String × List Token)
  | .ident x :: .comma :: rest => (arrowNames? rest).map fun (xs, rest) => (x :: xs, rest)
  | .ident x :: .closeParen :: .arrow :: rest => some ([x], rest)
  | _ => none

/-- The parameter list that an open parenthesis begins, if it does begin one: only a parameter list
is followed by an arrow. -/
def arrowParams? : List Token → Option (List String × List Token)
  | .closeParen :: .arrow :: rest => some ([], rest)
  | ts => arrowNames? ts

mutual
/-- Reads an expression. Each function below reads a token before it calls another with less fuel,
so one more unit of fuel than there are tokens is enough. -/
def expression : Nat → List Token → Except Stop (Expr × List Token)
  | 0, ts => .error (.unexpected .expression ts)
  | fuel + 1, ts =>
    match ts with
    | [] | .eof :: _ => .error (.missing ts)
    | .lambda :: rest => do
      let (xs, rest) ← keywordParams rest
      let (body, rest) ← expression fuel rest
      return (.lam xs body, rest)
    | .ident x :: .arrow :: rest => do
      let (body, rest) ← expression fuel rest
      return (.lam [x] body, rest)
    | .ident x :: rest => calls fuel (.name x) rest
    | .int n :: rest => calls fuel (.int n) rest
    | .openParen :: rest =>
      match arrowParams? rest with
      | some (xs, rest) => do
        let (body, rest) ← expression fuel rest
        return (.lam xs body, rest)
      | none => do
        let (e, rest) ← expression fuel rest
        let rest ← expect .closeParen .closeParen rest
        calls fuel e rest
    | _ => .error (.unexpected .expression ts)
def calls : Nat → Expr → List Token → Except Stop (Expr × List Token)
  | fuel + 1, callee, .openParen :: .closeParen :: rest => calls fuel (.call callee []) rest
  | fuel + 1, callee, .openParen :: rest => do
    let (a, rest) ← expression fuel rest
    let (as, rest) ← moreArgs fuel rest
    calls fuel (.call callee (a :: as)) rest
  | _, callee, ts => .ok (callee, ts)
def moreArgs : Nat → List Token → Except Stop (List Expr × List Token)
  | fuel + 1, .comma :: rest => do
    let (a, rest) ← expression fuel rest
    let (as, rest) ← moreArgs fuel rest
    return (a :: as, rest)
  | _, .closeParen :: rest => .ok ([], rest)
  | _, ts => .error (.unexpected .closeParenOrComma ts)
end

end Parse

/-- Why a text is not an expression. Positions count tokens from zero. -/
inductive ParseError where
  | invalid (e : ScanError)
  | unexpected (wanted : Parse.Wanted) (found : Token) (position : Nat)
  | missing (position : Nat)
  | trailing (found : Token) (position : Nat)
deriving DecidableEq

namespace ParseError

def message : ParseError → String
  | invalid e => "Invalid input: " ++ e.message
  | unexpected wanted found position =>
    "Expected " ++ wanted.describe ++ " but found " ++ found.describe ++ " at position " ++
      Text.Decimal.ofNat position
  | missing position => "Empty expression at position " ++ Text.Decimal.ofNat position
  | trailing found position =>
    "Unexpected " ++ found.describe ++ " after expression at position " ++
      Text.Decimal.ofNat position

def ofStop (total : Nat) : Parse.Stop → ParseError
  | .unexpected wanted rest => unexpected wanted (rest.headD .eof) (total - rest.length)
  | .missing rest => missing (total - rest.length)

end ParseError

def parseTokens (ts : List Token) : Except ParseError Expr :=
  match Parse.expression (ts.length + 1) ts with
  | .error stop => .error (.ofStop ts.length stop)
  | .ok (e, []) | .ok (e, .eof :: _) => .ok e
  | .ok (_, t :: rest) => .error (.trailing t (ts.length - (rest.length + 1)))

def parse (text : String) : Except ParseError Expr :=
  match tokenize text with
  | .error e => .error (.invalid e)
  | .ok ts => parseTokens ts

end Curried
