import Curried.Proofs.Invariant
import Curried.Proofs.Run
import Curried.Value

namespace Curried

open Machine

variable {ν : Type}

/-- A native is one of `S`, and it has received nothing or less than it takes. -/
def Value.Waits [Signature ν] (S : ν → Prop) : Value ν → Prop
  | int _ | closure .. => True
  | native f received => f.Among S ∧ (received = [] ∨ received.length < f.arity)

namespace Machine

def Control.values : Control ν → List (Value ν)
  | eval _ env => env.map Prod.snd
  | ret v => [v]
  | call f args => f :: args

def Frame.values : Frame ν → List (Value ν)
  | callee _ env => env.map Prod.snd
  | argument f done _ env => f :: done ++ env.map Prod.snd
  | leftover args => args

def State.values (s : State ν) : List (Value ν) :=
  s.control.values ++ s.frames.flatMap Frame.values

theorem Control.holds_iff_values {Q : Value ν → Prop} {control : Control ν} :
    control.Holds Q (fun _ _ => True) ↔ ∀ v ∈ control.values, v.Every Q := by
  cases control with
  | eval e env => simp [Holds, values]
  | ret v => simp [Holds, values]
  | call f args => simp [Holds, values]

theorem Frame.holds_iff_values {Q : Value ν → Prop} {frame : Frame ν} :
    frame.Holds Q (fun _ _ => True) ↔ ∀ v ∈ frame.values, v.Every Q := by
  cases frame with
  | callee args env => simp [Holds, values]
  | argument f done todo env =>
    simp only [Holds, values, List.forall_mem_append, List.forall_mem_cons, implies_true,
      true_and, List.cons_append]
  | leftover args => rfl

theorem State.holds_iff_values {Q : Value ν → Prop} {s : State ν} :
    s.Holds Q (fun _ _ => True) ↔ ∀ v ∈ s.values, v.Every Q := by
  simp only [State.values, List.forall_mem_append, List.forall_mem_flatMap]
  constructor
  · rintro ⟨hc, hf⟩
    exact ⟨Control.holds_iff_values.mp hc, fun frame h => Frame.holds_iff_values.mp (hf frame h)⟩
  · rintro ⟨hc, hf⟩
    exact ⟨Control.holds_iff_values.mpr hc, fun frame h => Frame.holds_iff_values.mpr (hf frame h)⟩

def Frame.Leaves : Frame ν → Prop
  | callee .. | argument .. => True
  | leftover args => args ≠ []

theorem leaves_gather {frames : List (Frame ν)} (h : ∀ frame ∈ frames, frame.Leaves) (f : Value ν)
    (done : List (Value ν)) (env : Env ν) (left : Nat) (todo : List Expr) :
    ∀ frame ∈ (gather f done env frames left todo).frames, frame.Leaves := by
  cases todo with
  | nil => exact h
  | cons a todo => exact List.forall_mem_cons.mpr ⟨trivial, h⟩

variable [Host ν] {S : ν → Prop} {I : Interpreter ν}

/-- Waiting is passed on by every step. -/
theorem hereditary_waits (hS : Host.Keeps S (Value.Waits S))
    (hG : ∀ x v, I.globals.lookup x = some v → v.Every (Value.Waits S)) :
    Hereditary (Value.Waits S) (fun _ _ => True) I where
  int _ := trivial
  closure := Iff.rfl
  body h := h
  call h := ⟨h, fun _ _ => trivial⟩
  wait hf hlt := ⟨hf.1, .inr hlt⟩
  run hf _ hargs hv := Host.Keeps.run hS (fun _ => trivial) hf.1 hargs hv
  globals hv := hG _ _ hv

/-- A step makes a frame for leftover arguments only if there are some. -/
theorem leaves_of_step {s t : State ν} (hs : ∀ frame ∈ s.frames, frame.Leaves)
    (ht : step I s = .ok (.next t)) : ∀ frame ∈ t.frames, frame.Leaves := by
  have hstep := step_advances I s
  rw [ht] at hstep
  cases hstep with
  | int n env frames left => exact hs
  | name frames left hv => exact hs
  | lam params body env frames left => exact hs
  | call f args env frames left => exact List.forall_mem_cons.mpr ⟨trivial, hs⟩
  | callee v args env frames left =>
    exact leaves_gather (List.forall_mem_cons.mp hs).2 v [] env left args
  | argument v f done todo env frames left =>
    exact leaves_gather (List.forall_mem_cons.mp hs).2 f (done ++ [v]) env left todo
  | leftover v args frames left => exact (List.forall_mem_cons.mp hs).2
  | enter frames left hr => exact hs
  | yield frames left hr => exact hs
  | leave frames left hne hr => exact List.forall_mem_cons.mpr ⟨hne, hs⟩

theorem leaves_of_reaches {s t : State ν} (hs : ∀ frame ∈ s.frames, frame.Leaves)
    (ht : Reaches I s t) : ∀ frame ∈ t.frames, frame.Leaves := by
  induction ht with
  | refl => exact hs
  | tail _ hstep ih => exact leaves_of_step ih hstep

end Machine

/-- Values in which each native was made without arguments or is a result of the machine, whatever
it was started on. -/
inductive Value.Obtained [Host ν] (S : ν → Prop) : Value ν → Prop
  | int (n : Int64) : Obtained S (.int n)
  | closure (params : List String) (body : Expr) {env : Env ν} :
      (∀ v ∈ env.map Prod.snd, Obtained S v) → Obtained S (.closure params body env)
  | native {f : Native ν} : f.Among S → Obtained S (.native f [])
  | result {I : Interpreter ν} {s : State ν} {v : Value ν} {left : Nat} :
      (∀ x w, I.globals.lookup x = some w → Obtained S w) → (∀ w ∈ s.values, Obtained S w) →
      run I s = .ok (v, left) → Obtained S v

variable [Host ν] {S : ν → Prop}

/-- A native waits in all values that can be obtained. -/
theorem Value.Obtained.waits (hS : Host.Keeps S (Value.Waits S)) {v : Value ν} (h : v.Obtained S) :
    v.Every (Waits S) := by
  induction h with
  | int n => exact every_int trivial
  | closure params body _ ih => exact .intro trivial ih
  | native hf => exact .intro ⟨hf, .inl rfl⟩ (List.forall_mem_nil _)
  | result _ _ hrun hglobals hvalues =>
    have hend := (hereditary_waits hS hglobals).reaches (State.holds_iff_values.mpr hvalues)
      (reaches_of_run hrun)
    exact hend.control

/-- Values in which all natives wait can be obtained: a call with too few arguments gives the native
that has received them. -/
theorem Value.Every.obtained {v : Value ν} (h : v.Every (Waits S)) : v.Obtained S := by
  induction h with
  | @intro v hv _ ih =>
    cases v with
    | int n => exact .int n
    | closure params body env => exact .closure params body ih
    | native f received =>
      obtain ⟨hf, hless⟩ := hv
      by_cases hne : received = []
      · subst hne
        exact .native hf
      have hlt : received.length < f.arity := hless.resolve_left hne
      have hreact : (native f []).react received = .ok (.yield (.native f received) []) :=
        react_of_lt hne hlt
      have hrun : run ⟨[], 1⟩ ⟨.call (.native f []) received, [], 1⟩ =
          .ok (.native f received, 0) := by
        rw [run_call_of_yield _ hreact, run_ret_nil]
      refine .result (fun x w hw => ?_) (fun w hw => ?_) hrun
      · cases hw
      · simp only [State.values, Control.values, List.flatMap_nil, List.append_nil,
          List.mem_cons] at hw
        rcases hw with rfl | hw
        · exact .native hf
        · exact ih w hw

/-- What a call of a native comes to. Without arguments it fails and tells how many are missing,
with too few it waits for the others, and with enough of them its function runs on exactly as many
as its arity, while the rest is left over. -/
structure Native.Called (f : Native ν) (received args : List (Value ν)) : Prop where
  without : args = [] → ∃ missing, received.length + missing = f.arity ∧
    (Value.native f received).react args =
      .error (.arity (Value.native f received).render missing 0)
  few : args ≠ [] → received.length + args.length < f.arity →
    (Value.native f received).react args = .ok (.yield (.native f (received ++ args)) [])
  enough : args ≠ [] → f.arity ≤ received.length + args.length →
    ∃ taken rest, received ++ args = taken ++ rest ∧ taken.length = f.arity ∧
      (Value.native f received).react args = f.run taken >>= fun v => .ok (.yield v rest)

theorem Native.called_of_waits {f : Native ν} {received : List (Value ν)}
    (h : (Value.native f received).Waits S) (args : List (Value ν)) : f.Called received args where
  without hargs := by
    have hle : received.length ≤ f.arity := by
      rcases h.2 with rfl | hlt
      · exact Nat.zero_le _
      · exact Nat.le_of_lt hlt
    subst hargs
    exact ⟨f.missing received.length, by rw [missing_of_le hle, Nat.add_sub_cancel' hle], rfl⟩
  few hne hlt := Value.react_of_lt hne (by rwa [List.length_append])
  enough hne hle := by
    rw [← List.length_append] at hle
    obtain ⟨taken, rest, hcut, hlen⟩ := Value.exists_taken hle
    exact ⟨taken, rest, hcut, hlen, Value.react_of_append hne hcut hlen⟩

/-- A built-in function that runs has all the arguments that it looks at. -/
theorem Builtin.run_of_called {b : Builtin} {received args : List (Value ν)}
    (h : (Native.builtin b).Called received args) (hne : args ≠ [])
    (hle : b.arity ≤ received.length + args.length) :
    (∃ n rest, (Value.native (.builtin b) received).react args = .ok (.yield (.int n) rest)) ∨
      ∃ v, (Value.native (.builtin b) received).react args = .error (.mismatch "integer" v) := by
  obtain ⟨taken, rest, -, hlen, hreact⟩ := h.enough hne hle
  rw [hreact]
  cases hrun : b.run taken with
  | ok v =>
    obtain ⟨n, rfl⟩ := Builtin.exists_int_of_run hrun
    exact .inl ⟨n, rest, by rw [Native.run, hrun, ok_bind]⟩
  | error err =>
    obtain ⟨v, rfl⟩ := Builtin.mismatch_of_run hlen hrun
    exact .inr ⟨v, by rw [Native.run, hrun, error_bind]⟩

/-- The machine, started on values in which natives were made without arguments or obtained by
evaluation, comes to no others: in all states that it reaches, each native anywhere has received
nothing or less than it takes. Calls of natives then miss no negative number of arguments and run
their functions on exactly as many as the arity, so that a built-in function gives an integer or
finds an argument that is none, and no frame for leftover arguments is empty. -/
theorem natives_run_saturated (hS : Host.Keeps S (Value.Waits S)) {I : Interpreter ν}
    (hG : ∀ x v, I.globals.lookup x = some v → v.Obtained S) {s t : State ν}
    (hframes : s.frames = []) (hs : ∀ v ∈ s.values, v.Obtained S) (ht : Reaches I s t) :
    (∀ v ∈ t.values, v.Every (Value.Waits S)) ∧
    (∀ f received args, t.control = .call (.native f received) args → f.Called received args) ∧
    (∀ b received args, t.control = .call (.native (.builtin b) received) args → args ≠ [] →
      b.arity ≤ received.length + args.length →
      (∃ n rest, (Value.native (.builtin b) received).react args = .ok (.yield (.int n) rest)) ∨
        ∃ v, (Value.native (.builtin b) received).react args = .error (.mismatch "integer" v)) ∧
    ∀ args, .leftover args ∈ t.frames → args ≠ [] := by
  have hkept : t.Holds (Value.Waits S) fun _ _ => True := by
    apply (hereditary_waits hS fun x v hv => (hG x v hv).waits hS).reaches _ ht
    exact State.holds_iff_values.mpr fun v hv => (hs v hv).waits hS
  have hleaves : ∀ frame ∈ t.frames, frame.Leaves := by
    apply leaves_of_reaches _ ht
    rw [hframes]
    exact List.forall_mem_nil _
  have hcalled : ∀ f received args, t.control = .call (.native f received) args →
      f.Called received args := by
    intro f received args hcall
    have hcontrol := hkept.control
    rw [hcall] at hcontrol
    exact Native.called_of_waits hcontrol.1.self args
  refine ⟨State.holds_iff_values.mp hkept, hcalled, ?_, fun args hargs => hleaves _ hargs⟩
  intro b received args hcall
  exact Builtin.run_of_called (hcalled _ received args hcall)

/-- A native that has received one argument of three is called with three more. It gives its second
argument and leaves one over, on which that argument then runs. -/
theorem natives_run_saturated_leftover :
    let I : Interpreter Stock := ⟨[("second", .native (.host .second) [])], 9⟩
    let partly : Value Stock := .native (.host .second) [.native (.builtin .add) [.int 1]]
    let s : State Stock := ⟨.call partly [.ofBuiltin .inc, .int 3, .int 4], [], 9⟩
    let t : State Stock := ⟨.ret (.ofBuiltin .inc), [.leftover [.int 4]], 8⟩
    let u : State Stock := ⟨.call (.ofBuiltin .inc) [.int 4], [], 8⟩
    Reaches I s t ∧ (∀ v ∈ t.values, v.Every (Value.Waits (· = .second))) ∧
      (∀ args, .leftover args ∈ t.frames → args ≠ []) ∧
      Reaches I s u ∧ (Native.builtin .inc).Called [] [(.int 4 : Value Stock)] := by
  intro I partly s t u
  have ht : Reaches I s t := .single rfl
  have hu : Reaches I s u := .tail ht rfl
  have hadd : (Value.native (.builtin .add) [.int 1] : Value Stock).Every
      (Value.Waits (· = .second)) :=
    .intro ⟨trivial, .inr (by decide)⟩ (List.forall_mem_singleton.mpr (Value.every_int trivial))
  have hpartly : partly.Every (Value.Waits (· = .second)) :=
    .intro ⟨rfl, .inr (by decide)⟩ (List.forall_mem_singleton.mpr hadd)
  have hG : ∀ x v, I.globals.lookup x = some v → v.Obtained (· = .second) := by
    intro x v hv
    obtain rfl : v = .native (.host .second) [] := by
      simpa [I] using mem_of_lookup hv
    exact .native rfl
  have hs : ∀ v ∈ s.values, v.Obtained (· = .second) := by
    intro v hv
    simp only [s, State.values, Control.values, List.flatMap_nil, List.append_nil, List.mem_cons,
      List.not_mem_nil, or_false] at hv
    rcases hv with rfl | rfl | rfl | rfl
    · exact hpartly.obtained
    · exact .native trivial
    · exact .int 3
    · exact .int 4
  obtain ⟨hvalues, -, -, hleft⟩ :=
    natives_run_saturated (Stock.keeps_second _) hG rfl hs ht
  obtain ⟨-, hcalled, -, -⟩ := natives_run_saturated (Stock.keeps_second _) hG rfl hs hu
  exact ⟨ht, hvalues, hleft, hu, hcalled _ _ _ rfl⟩

end Curried
