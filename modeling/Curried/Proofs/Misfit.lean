import Curried.Proofs.Saturation

namespace Curried

open Machine

variable {ν : Type} [Host ν]

inductive Value.Misfit : Value ν → List (Value ν) → EvalError → Prop
  | closure {params : List String} {body : Expr} {env : Env ν} {args : List (Value ν)} :
      params.length ≠ args.length →
      Misfit (.closure params body env) args
        (.arity (Value.closure params body env).render params.length args.length)
  | native (f : Native ν) (received : List (Value ν)) :
      Misfit (.native f received) []
        (.arity (Value.native f received).render (f.missing received.length) 0)

/-- A call without arguments of a native that has received as many as it takes. -/
def Value.Filled (f : Value ν) (args : List (Value ν)) : Prop :=
  args = [] ∧ ∃ (g : Native ν) (received : List (Value ν)),
    f = .native g received ∧ received.length = g.arity

def Value.Nullary (f : Value ν) (args : List (Value ν)) : Prop :=
  args = [] ∧ ∃ g : Native ν, f = .native g [] ∧ g.arity = 0

variable {S : ν → Prop} {I : Interpreter ν} {callee : String} {expected found : Nat}

/-- The two numbers of a refused call are the same only if the native is full. -/
theorem Value.Misfit.eq_iff_filled {f : Value ν} {args : List (Value ν)}
    (h : f.Misfit args (.arity callee expected found)) : expected = found ↔ f.Filled args := by
  cases h with
  | closure hl =>
    constructor
    · intro heq
      exact absurd heq hl
    · rintro ⟨-, g, received, hg, -⟩
      cases hg
  | native g received =>
    rw [Native.missing_eq_zero_iff]
    constructor
    · intro hfull
      exact ⟨rfl, g, received, rfl, hfull⟩
    · rintro ⟨-, g', received', hg, hfull⟩
      cases hg
      exact hfull

/-- A native that waits is full only if it takes no arguments. -/
theorem Value.Waits.filled_iff_nullary {f : Value ν} (hf : f.Waits S) {args : List (Value ν)} :
    f.Filled args ↔ f.Nullary args := by
  constructor
  · rintro ⟨hargs, g, received, rfl, hfull⟩
    have hnil : received = [] := hf.2.resolve_right (Nat.not_lt.mpr (Nat.le_of_eq hfull.symm))
    subst hnil
    exact ⟨hargs, g, rfl, hfull.symm⟩
  · rintro ⟨hargs, g, rfl, harity⟩
    exact ⟨hargs, g, [], rfl, harity.symm⟩

/-- An error about the number of arguments is that of a refused call, or it comes from a function of
the host. Built-in functions that run have as many as they take. -/
theorem Value.Answers.cause_of_arity {f : Value ν} {args : List (Value ν)}
    (h : f.Answers args (.error (.arity callee expected found))) :
    (∃ g received taken, f = .native (.host g) received ∧
        Host.run g taken = .error (.arity callee expected found)) ∨
      f.Misfit args (.arity callee expected found) := by
  cases h with
  | misfit hl => exact .inr (.closure hl)
  | idle g received => exact .inr (.native g received)
  | @fail g received _ taken _ _ _ _ hlen hrun =>
    cases g with
    | builtin b =>
      obtain ⟨v, hv⟩ := Builtin.mismatch_of_run hlen hrun
      cases hv
    | host g => exact .inl ⟨g, received, taken, rfl, hrun⟩

/-- A run from `s` comes to a call that is refused with this error. The numbers in it are the same
exactly for the calls in `P`. -/
def Machine.Refuses (P : Value ν → List (Value ν) → Prop) (I : Interpreter ν) (s : State ν)
    (callee : String) (expected found : Nat) : Prop :=
  ∃ f args frames left, Reaches I s ⟨.call f args, frames, left⟩ ∧
    f.Misfit args (.arity callee expected found) ∧ (expected = found ↔ P f args)

/-- What a failure on a number of arguments comes from: a function of the host in `S`, or a call
that is refused. -/
def Machine.Blames (S : ν → Prop) (P : Value ν → List (Value ν) → Prop) (I : Interpreter ν)
    (s : State ν) (callee : String) (expected found : Nat) : Prop :=
  (∃ g args, S g ∧ Host.run g args = .error (.arity callee expected found)) ∨
    Refuses P I s callee expected found

theorem Machine.blames_filled_of_run {s : State ν}
    (h : run I s = .error (.arity callee expected found)) :
    Blames (fun _ => True) Value.Filled I s callee expected found := by
  obtain ⟨t, ht, hfail⟩ := exists_error_of_run h
  cases hfail with
  | @fail f args _ frames left hr =>
    refine hr.cause_of_arity.imp ?_ ?_
    · rintro ⟨g, -, taken, -, hrun⟩
      exact ⟨g, taken, trivial, hrun⟩
    · intro hmisfit
      exact ⟨f, args, frames, left + 1, ht, hmisfit, hmisfit.eq_iff_filled⟩

theorem Machine.blames_nullary_of_run (hS : Host.Keeps S (Value.Waits S))
    (hG : ∀ x v, I.globals.lookup x = some v → v.Obtained S) {s : State ν}
    (hs : ∀ v ∈ s.values, v.Obtained S) (h : run I s = .error (.arity callee expected found)) :
    Blames S Value.Nullary I s callee expected found := by
  obtain ⟨t, ht, hfail⟩ := exists_error_of_run h
  have hkept : t.Holds (Value.Waits S) fun _ _ => True := by
    apply (hereditary_waits hS fun x v hv => (hG x v hv).waits hS).reaches _ ht
    exact State.holds_iff_values.mpr fun v hv => (hs v hv).waits hS
  cases hfail with
  | @fail f args _ frames left hr =>
    have hf : f.Waits S := hkept.control.1.self
    refine hr.cause_of_arity.imp ?_ ?_
    · rintro ⟨g, received, taken, rfl, hrun⟩
      exact ⟨g, taken, hf.1, hrun⟩
    · intro hmisfit
      exact ⟨f, args, frames, left + 1, ht, hmisfit,
        hmisfit.eq_iff_filled.trans hf.filled_iff_nullary⟩

/-- When the machine fails on a number of arguments, the number that it expected differs from the
one that it found, unless the call is that of a native that has received as many as it takes,
without any more. Such a call always fails, with zero for both. Of values that can be obtained, only
natives that take no arguments are full. Errors that a function of the host reports itself say what
that function says. -/
theorem arity_error_differs_unless_filled (I : Interpreter ν) :
    (∀ e callee expected found, I.evaluate e = .error (.arity callee expected found) →
      Blames (fun _ => True) Value.Filled I ⟨.eval e [], [], I.limit⟩ callee expected found) ∧
    (∀ f args callee expected found, I.apply f args = .error (.arity callee expected found) →
      Blames (fun _ => True) Value.Filled I ⟨.call f args, [], I.limit⟩ callee expected found) ∧
    (∀ f args, f.Filled args → 0 < I.limit → I.apply f args = .error (.arity f.render 0 0)) ∧
    ∀ S : ν → Prop, Host.Keeps S (Value.Waits S) →
      (∀ x v, I.globals.lookup x = some v → v.Obtained S) →
      (∀ e callee expected found, I.evaluate e = .error (.arity callee expected found) →
        Blames S Value.Nullary I ⟨.eval e [], [], I.limit⟩ callee expected found) ∧
      ∀ f args, f.Obtained S → (∀ a ∈ args, a.Obtained S) → ∀ callee expected found,
        I.apply f args = .error (.arity callee expected found) →
          Blames S Value.Nullary I ⟨.call f args, [], I.limit⟩ callee expected found := by
  refine ⟨?_, ?_, ?_, ?_⟩
  · intro e callee expected found h
    exact blames_filled_of_run (except_map_eq_error_iff.mp h)
  · intro f args callee expected found h
    exact blames_filled_of_run (except_map_eq_error_iff.mp h)
  · rintro f args ⟨rfl, g, received, rfl, hfull⟩ hlimit
    have hreact : (Value.native g received).react [] =
        .error (.arity (Value.native g received).render (g.missing received.length) 0) := rfl
    rw [Native.missing_eq_zero_iff.mpr hfull] at hreact
    obtain ⟨left, hleft⟩ := Nat.exists_eq_succ_of_ne_zero (Nat.ne_of_gt hlimit)
    rw [Interpreter.apply, hleft, run_call_of_error I hreact]
    rfl
  · intro S hS hG
    constructor
    · intro e callee expected found h
      exact blames_nullary_of_run hS hG (List.forall_mem_nil _) (except_map_eq_error_iff.mp h)
    · intro f args hf hargs callee expected found h
      apply blames_nullary_of_run hS hG _ (except_map_eq_error_iff.mp h)
      simp only [State.values, Control.values, List.flatMap_nil, List.append_nil]
      exact List.forall_mem_cons.mpr ⟨hf, hargs⟩

/-- A call of a built-in function that misses one argument says that it expects one, and a call of a
native that takes none says that it expects none. So does a call of a built-in function that was
made with all its arguments, which no run can give. All have found none. -/
theorem arity_error_differs_unless_filled_unit :
    let unit : Value Stock := .native (.host .unit) []
    let full : Value Stock := .native (.builtin .add) [.int 1, .int 2]
    let I : Interpreter Stock := ⟨("unit", unit) :: Interpreter.builtins, 5⟩
    let partly : Expr := .call (.call (.name "add") [.int 1]) []
    I.evaluate partly = .error (.arity "<native add applied to 1>" 1 0) ∧
      Refuses Value.Nullary I ⟨.eval partly [], [], 5⟩ "<native add applied to 1>" 1 0 ∧
      I.apply unit [] = .error (.arity "<native unit>" 0 0) ∧
      Refuses Value.Nullary I ⟨.call unit [], [], 5⟩ "<native unit>" 0 0 ∧
      I.apply full [] = .error (.arity "<native add applied to 2>" 0 0) := by
  intro unit full I partly
  have hS : Host.Keeps (· = Stock.unit) (Value.Waits (· = Stock.unit)) := by
    rintro f rfl args v - hv
    match args with
    | [] =>
      cases hv
      exact Value.every_int trivial
    | _ :: _ => cases hv
  have hunit : unit.Obtained (· = .unit) := .native rfl
  have hG : ∀ x v, I.globals.lookup x = some v → v.Obtained (· = .unit) := by
    intro x v hv
    rcases List.mem_cons.mp (mem_of_lookup hv) with rfl | hv
    · exact hunit
    · obtain ⟨binding, hb, rfl⟩ := List.mem_map.mp hv
      obtain ⟨f, -, rfl⟩ := List.mem_map.mp hb
      exact .native trivial
  -- The one function of the host shows its name in another way than the machine does.
  have hhost : ∀ callee expected found, callee ≠ "unit" →
      ¬ ∃ g args, g = Stock.unit ∧ Host.run g args = .error (.arity callee expected found) := by
    rintro callee expected found hne ⟨g, args, rfl, hrun⟩
    match args with
    | [] => cases hrun
    | _ :: _ =>
      cases hrun
      exact hne rfl
  have hpartly : I.evaluate partly = .error (.arity "<native add applied to 1>" 1 0) := by cbv
  obtain ⟨-, -, hfilled, hobtained⟩ := arity_error_differs_unless_filled I
  obtain ⟨heval, happly⟩ := hobtained _ hS hG
  have hcall : I.apply unit [] = .error (.arity "<native unit>" 0 0) :=
    hfilled unit [] ⟨rfl, _, [], rfl, rfl⟩ (by decide)
  refine ⟨hpartly, ?_, hcall, ?_, ?_⟩
  · exact (heval partly _ _ _ hpartly).resolve_left (hhost _ _ _ (by decide))
  · exact (happly unit [] hunit (List.forall_mem_nil _) _ _ _ hcall).resolve_left
      (hhost _ _ _ (by decide))
  · exact hfilled full [] ⟨rfl, _, _, rfl, rfl⟩ (by decide)

/-- An error that contradicts itself: a native that takes no arguments is called with none, and it
is refused since none were expected and none were found. -/
theorem arity_error_of_unit :
    ¬ ∀ (I : Interpreter Stock) (f : Value Stock) (args : List (Value Stock))
      (callee : String) (expected found : Nat),
      I.apply f args = .error (.arity callee expected found) →
        f.Misfit args (.arity callee expected found) → expected ≠ found := by
  intro h
  have hunit : Interpreter.apply ⟨[], 1⟩ (.native (.host Stock.unit) []) [] =
      .error (.arity "<native unit>" 0 0) := by cbv
  exact h _ _ _ _ _ _ hunit (.native (.host Stock.unit) []) rfl

end Curried
