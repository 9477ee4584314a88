import Std.Data.TreeMap

namespace Curried

inductive ScopeError where
  | unbound (name : String)
  | onlyRoot
deriving DecidableEq

def ScopeError.message : ScopeError → String
  | unbound name => "Unbound name '" ++ name ++ "'"
  | onlyRoot => "Cannot exit the root scope"

/-- The innermost frame and those around it, from the inside out. The last one is the root. -/
structure Scopes (κ α : Type) [Ord κ] where
  inner : Std.TreeMap κ α := {}
  outer : List (Std.TreeMap κ α) := []

namespace Scopes

variable {κ α : Type} [Ord κ]

def frames (s : Scopes κ α) : List (Std.TreeMap κ α) := s.inner :: s.outer

def depth (s : Scopes κ α) : Nat := s.frames.length

def enter (s : Scopes κ α) : Scopes κ α := ⟨{}, s.frames⟩

def leave (s : Scopes κ α) : EStateM.Result ScopeError (Scopes κ α) Unit :=
  match s.outer with
  | [] => .error .onlyRoot s
  | frame :: outer => .ok () ⟨frame, outer⟩

def define (s : Scopes κ α) (key : κ) (a : α) : Scopes κ α :=
  { s with inner := s.inner.insert key a }

def find? (s : Scopes κ α) (key : κ) : Option α := s.frames.findSome? (·[key]?)

def lookup [ToString κ] (s : Scopes κ α) (key : κ) : Except ScopeError α :=
  match s.find? key with
  | some a => .ok a
  | none => .error (.unbound (toString key))

def contains (s : Scopes κ α) (key : κ) : Bool := (s.find? key).isSome

def flatten (s : Scopes κ α) : Std.TreeMap κ α := s.frames.foldr (fun frame all => all ∪ frame) {}

theorem depth_pos (s : Scopes κ α) : 0 < s.depth := by simp [depth, frames]

@[simp] theorem depth_define (s : Scopes κ α) (key : κ) (a : α) :
    (s.define key a).depth = s.depth := rfl

variable [Std.TransOrd κ]

/-- A new frame hides nothing. -/
@[simp] theorem find?_enter (s : Scopes κ α) (key : κ) : s.enter.find? key = s.find? key := by
  simp [find?, enter, frames]

/-- A definition decides its own key and no other. -/
theorem find?_define [Std.LawfulEqOrd κ] [DecidableEq κ] (s : Scopes κ α) (key other : κ) (a : α) :
    (s.define key a).find? other = if key = other then some a else s.find? other := by
  simp only [find?, define, frames, List.findSome?_cons, Std.TreeMap.getElem?_insert,
    Std.compare_eq_iff_eq]
  by_cases h : key = other <;> simp [h]

end Scopes

end Curried
