import Curried.Token

namespace Curried

inductive Expr where
  | name (text : String)
  | int (value : Int64)
  | lam (params : List String) (body : Expr)
  | call (callee : Expr) (args : List Expr)
deriving Inhabited

namespace Expr

mutual
def decEq : (a b : Expr) → Decidable (a = b)
  | .name x, .name y => decidable_of_iff (x = y) (by simp)
  | .int m, .int n => decidable_of_iff (m = n) (by simp)
  | .lam xs a, .lam ys b =>
    have := decEq a b
    decidable_of_iff (xs = ys ∧ a = b) (by simp)
  | .call f as, .call g bs =>
    have := decEq f g
    have := decEqList as bs
    decidable_of_iff (f = g ∧ as = bs) (by simp)
  | .name _, .int _ | .name _, .lam .. | .name _, .call ..
  | .int _, .name _ | .int _, .lam .. | .int _, .call ..
  | .lam .., .name _ | .lam .., .int _ | .lam .., .call ..
  | .call .., .name _ | .call .., .int _ | .call .., .lam .. => isFalse nofun
def decEqList : (as bs : List Expr) → Decidable (as = bs)
  | [], [] => isTrue rfl
  | [], _ :: _ | _ :: _, [] => isFalse nofun
  | a :: as, b :: bs =>
    have := decEq a b
    have := decEqList as bs
    decidable_of_iff (a = b ∧ as = bs) (by simp)
end

instance : DecidableEq Expr := decEq

def isLam : Expr → Bool
  | lam .. => true
  | _ => false

mutual
def isCurried : Expr → Bool
  | .name _ | .int _ => true
  | .lam params body => params.length == 1 && body.isCurried
  | .call callee args => args.length == 1 && callee.isCurried && areCurried args
def areCurried : List Expr → Bool
  | [] => true
  | a :: as => a.isCurried && areCurried as
end

theorem areCurried_eq_all (as : List Expr) : areCurried as = as.all isCurried := by
  induction as with
  | nil => simp [areCurried]
  | cons a as ih => simp [areCurried, ih]

mutual
def paramCount : Expr → Nat
  | .name _ | .int _ => 0
  | .lam params body => params.length + body.paramCount
  | .call callee args => callee.paramCount + paramCounts args
def paramCounts : List Expr → Nat
  | [] => 0
  | a :: as => a.paramCount + paramCounts as
end

mutual
/-- The names that occur outside every function that binds them, from left to right, with one
entry for each occurrence. `bound` lists the parameters in scope. -/
def freeOccurrences (bound : List String) : Expr → List String
  | .name x => if x ∈ bound then [] else [x]
  | .int _ => []
  | .lam params body => body.freeOccurrences (params ++ bound)
  | .call callee args => callee.freeOccurrences bound ++ freeOccurrencesAll bound args
def freeOccurrencesAll (bound : List String) : List Expr → List String
  | [] => []
  | a :: as => a.freeOccurrences bound ++ freeOccurrencesAll bound as
end

theorem freeOccurrencesAll_eq_flatMap (bound : List String) (as : List Expr) :
    freeOccurrencesAll bound as = as.flatMap (freeOccurrences bound) := by
  induction as with
  | nil => simp [freeOccurrencesAll]
  | cons a as ih => simp [freeOccurrencesAll, ih]

def freeNames (e : Expr) : List String := (e.freeOccurrences []).eraseDups

end Expr

def commaSeparated : List String → String
  | [] => ""
  | [s] => s
  | s :: ss => s ++ ", " ++ commaSeparated ss

namespace Expr

def renderParams : List String → String
  | [x] => x
  | xs => "(" ++ commaSeparated xs ++ ")"

mutual
def render : Expr → String
  | .name x => x
  | .int n => Text.Decimal.ofInt n.toInt
  | .lam params body => renderParams params ++ " -> " ++ body.render
  | .call callee args =>
    (if callee.isLam then "(" ++ callee.render ++ ")" else callee.render) ++
      "(" ++ commaSeparated (renderAll args) ++ ")"
def renderAll : List Expr → List String
  | [] => []
  | a :: as => a.render :: renderAll as
end

theorem renderAll_eq_map (as : List Expr) : renderAll as = as.map render := by
  induction as with
  | nil => simp [renderAll]
  | cons a as ih => simp [renderAll, ih]

end Expr

end Curried
