import Curried.Term
import Curried.Proofs.Names

namespace Curried

def Ident.nth (n : Nat) : Ident := ⟨UInt64.ofNat n⟩

theorem Ident.toNat_nth {n : Nat} (h : n < UInt64.size) : (nth n).index.toNat = n :=
  UInt64.toNat_ofNat_of_lt h

theorem Ident.nth_toNat (x : Ident) : nth x.index.toNat = x := by
  simp only [nth, UInt64.ofNat_toNat]

theorem Ident.nth_inj {m n : Nat} (hm : m < UInt64.size) (hn : n < UInt64.size)
    (h : nth m = nth n) : m = n := by
  rw [← toNat_nth hm, ← toNat_nth hn, h]

namespace Nameless

def absCount : Nameless → Nat
  | bound _ | free _ => 0
  | abs body => body.absCount + 1
  | app callee argument => callee.absCount + argument.absCount

def freeOccurrences : Nameless → List String
  | bound _ => []
  | free name => [name]
  | abs body => body.freeOccurrences
  | app callee argument => callee.freeOccurrences ++ argument.freeOccurrences

def Below (n : Nat) : Nameless → Prop
  | bound i => i < n
  | free _ => True
  | abs body => body.Below (n + 1)
  | app callee argument => callee.Below n ∧ argument.Below n

/-- The term of a nameless form under binders `scope`, innermost first, when `k` identifiers have
been issued before. Only distances below the number of binders have a meaning. -/
def number (scope : List Ident) (k : Nat) : Nameless → Term
  | bound i => .var (scope.getD i default)
  | free name => .free name
  | abs body => .abs (.nth k) (body.number (.nth k :: scope) (k + 1))
  | app callee argument =>
    .app (callee.number scope k) (argument.number scope (k + callee.absCount))

theorem absMany_zero (m : Nameless) : absMany 0 m = m := rfl

theorem absMany_succ (n : Nat) (m : Nameless) : absMany (n + 1) m = abs (absMany n m) := rfl

theorem absMany_add (m n : Nat) (b : Nameless) : absMany (m + n) b = absMany m (absMany n b) := by
  induction m with
  | zero => rw [Nat.zero_add, absMany_zero]
  | succ m ih => rw [Nat.succ_add, absMany_succ, ih, absMany_succ]

theorem absCount_absMany (n : Nat) (m : Nameless) : (absMany n m).absCount = n + m.absCount := by
  induction n with
  | zero => simp [absMany_zero]
  | succ n ih => simp only [absMany_succ, absCount, ih]; omega

theorem freeOccurrences_absMany (n : Nat) (m : Nameless) :
    (absMany n m).freeOccurrences = m.freeOccurrences := by
  induction n with
  | zero => rfl
  | succ n ih => simpa only [absMany_succ, freeOccurrences] using ih

theorem below_absMany {n d : Nat} {m : Nameless} : (absMany n m).Below d ↔ m.Below (n + d) := by
  induction n generalizing d with
  | zero => simp [absMany_zero]
  | succ n ih =>
    simp only [absMany_succ, Below, ih]
    rw [show n + (d + 1) = n + 1 + d by omega]

/-- The binders of a parameter list, numbered from `k` on. -/
theorem number_absMany (scope : List Ident) (k n : Nat) (m : Nameless) :
    (absMany n m).number scope k =
      .curry ((List.range' k n).map .nth)
        (m.number (((List.range' k n).map .nth).reverse ++ scope) (k + n)) := by
  induction n generalizing scope k with
  | zero => simp [absMany_zero, Term.curry]
  | succ n ih =>
    rw [absMany_succ, number, ih, List.range'_succ]
    simp only [List.map_cons, List.reverse_cons, List.append_assoc, List.singleton_append,
      Term.curry, List.foldr_cons]
    rw [show k + 1 + n = k + (n + 1) by omega]

@[simp] theorem freeOccurrences_number (scope : List Ident) (k : Nat) (m : Nameless) :
    (m.number scope k).freeOccurrences = m.freeOccurrences := by
  induction m generalizing scope k with
  | bound i => rfl
  | free name => rfl
  | abs body ih => exact ih _ _
  | app callee argument ihf iha =>
    simp only [number, Term.freeOccurrences, freeOccurrences, ihf, iha]

/-- The binders in preorder are the identifiers issued next. -/
theorem binders_number (scope : List Ident) (k : Nat) (m : Nameless) :
    (m.number scope k).binders = (List.range' k m.absCount).map .nth := by
  induction m generalizing scope k with
  | bound i => rfl
  | free name => rfl
  | abs body ih => simp only [number, Term.binders, absCount, ih, List.range'_succ, List.map_cons]
  | app callee argument ihf iha =>
    rw [number, Term.binders, absCount, ihf, iha, ← List.map_append, List.range'_append_1]

structure Issued (scope : List Ident) (k : Nat) : Prop where
  nodup : scope.Nodup
  lt : ∀ x ∈ scope, x.index.toNat < k

theorem Issued.cons {scope : List Ident} {k : Nat} (h : Issued scope k) (hk : k < UInt64.size) :
    Issued (.nth k :: scope) (k + 1) := by
  constructor
  · apply List.nodup_cons.mpr
    refine ⟨fun hm => ?_, h.nodup⟩
    have hlt := h.lt _ hm
    rw [Ident.toNat_nth hk] at hlt
    omega
  · intro x hx
    rcases List.mem_cons.mp hx with rfl | hx
    · rw [Ident.toNat_nth hk]; omega
    · have hlt := h.lt x hx
      omega

theorem Issued.mono {scope : List Ident} {j k : Nat} (h : Issued scope j) (hjk : j ≤ k) :
    Issued scope k :=
  ⟨h.nodup, fun x hx => Nat.lt_of_lt_of_le (h.lt x hx) hjk⟩

theorem idxOf?_getD {scope : List Ident} (h : scope.Nodup) {i : Nat} (hi : i < scope.length) :
    scope.idxOf? (scope.getD i default) = some i := by
  have hg : scope.getD i default = scope[i] := by simp [hi]
  rw [hg, List.idxOf?_eq_some_iff]
  refine ⟨hi, rfl, fun j hj he => ?_⟩
  have hji : j = i := (List.getElem_inj h).mp he
  omega

/-- The nameless form is found again in the numbered term. -/
theorem nameless?_number {scope : List Ident} {k : Nat} {m : Nameless} (hb : m.Below scope.length)
    (hs : Issued scope k) (hk : k + m.absCount ≤ UInt64.size) :
    (m.number scope k).nameless? scope = some m := by
  induction m generalizing scope k with
  | bound i => simp only [number, Term.nameless?, idxOf?_getD hs.nodup hb, Option.map_some]
  | free name => rfl
  | abs body ih =>
    simp only [absCount] at hk
    have hi := ih hb (hs.cons (by omega)) (by omega)
    simp only [number, Term.nameless?, hi, Option.map_some]
  | app callee argument ihf iha =>
    simp only [absCount] at hk
    have hf := ihf hb.1 hs (by omega)
    -- The binders inside the callee are out of scope, but their identifiers are not issued again.
    have ha := iha hb.2 (hs.mono (Nat.le_add_right k callee.absCount)) (by omega)
    simp [number, Term.nameless?, hf, ha]

end Nameless

end Curried
