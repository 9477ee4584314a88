import Curried.Proofs.Counting
import Curried.Proofs.Pending
import Curried.Proofs.Resolution

/-!
Globals that no code uses make no difference to a run. So a value can be called under a name: if the
name and those of the arguments are used nowhere, an expression that makes the call evaluates to
what comes of calling the value itself, with the same number of calls. And a global that is used
nowhere can be defined, or be given another value, without any difference to an evaluation.
-/

namespace Curried

open Machine

variable {ν : Type}

structure Interpreter.AgreeOn (K : String → Prop) (I J : Interpreter ν) : Prop where
  limit : I.limit = J.limit
  globals : ∀ x, K x → I.globals.lookup x = J.globals.lookup x

namespace Interpreter.AgreeOn

variable {K : String → Prop} {I J L : Interpreter ν}

theorem symm (h : I.AgreeOn K J) : J.AgreeOn K I :=
  ⟨h.limit.symm, fun x hx => (h.globals x hx).symm⟩

theorem trans (h : I.AgreeOn K J) (h' : J.AgreeOn K L) : I.AgreeOn K L :=
  ⟨h.limit.trans h'.limit, fun x hx => (h.globals x hx).trans (h'.globals x hx)⟩

variable [Host ν] {S : ν → Prop} {s : State ν}

/-- A step looks up no names but those that code uses. -/
theorem step_eq (h : I.AgreeOn K J) (hs : s.Holds (Value.Uses S K) (UsesUnder K)) :
    step I s = step J s := by
  rcases s with ⟨control, frames, left⟩
  match control, frames with
  | .eval (.int n) env, frames => rfl
  | .eval (.name x) env, frames =>
    have hx : (env.lookup x).or (I.globals.lookup x) = (env.lookup x).or (J.globals.lookup x) := by
      cases hlocal : env.lookup x with
      | some v => rfl
      | none =>
        have hK : K x := (hs.control.1 x ((Expr.mem_freeNames_name x).mpr rfl)).resolve_left
          (not_mem_of_lookup_eq_none hlocal)
        rw [h.globals x hK]
    simp only [step, hx]
  | .eval (.lam params body) env, frames => rfl
  | .eval (.call f args) env, frames => rfl
  | .ret v, [] => rfl
  | .ret v, .callee args env :: frames => rfl
  | .ret v, .argument f done todo env :: frames => rfl
  | .ret v, .leftover args :: frames => rfl
  | .call f args, frames =>
    cases left with
    | zero => simp only [step, h.limit]
    | succ left => rfl

theorem run_eq (h : I.AgreeOn K J) (hI : Hereditary (Value.Uses S K) (UsesUnder K) I)
    (hs : s.Holds (Value.Uses S K) (UsesUnder K)) : run I s = run J s := by
  fun_induction run I s with
  | case1 s err he => exact (run_of_error J (h.step_eq hs ▸ he)).symm
  | case2 s v left hd =>
    have hdone := step_advances I s
    rw [hd] at hdone
    cases hdone
    exact (run_ret_nil J left v).symm
  | case3 s t ht ih =>
    rw [ih (hI.step hs ht)]
    exact (run_of_next J (h.step_eq hs ▸ ht)).symm

theorem apply_eq (h : I.AgreeOn K J) (hI : Hereditary (Value.Uses S K) (UsesUnder K) I)
    {f : Value ν} {args : List (Value ν)} (hf : f.Every (Value.Uses S K))
    (hargs : ∀ a ∈ args, a.Every (Value.Uses S K)) : I.apply f args = J.apply f args := by
  have hs : (State.mk (.call f args) [] I.limit).Holds (Value.Uses S K) (UsesUnder K) :=
    ⟨⟨hf, hargs⟩, List.forall_mem_nil _⟩
  rw [Interpreter.apply, Interpreter.apply, h.run_eq hI hs, h.limit]

theorem applyTwice_eq (h : I.AgreeOn K J) (hI : Hereditary (Value.Uses S K) (UsesUnder K) I)
    {f first second : Value ν} (hf : f.Every (Value.Uses S K))
    (hfirst : first.Every (Value.Uses S K)) (hsecond : second.Every (Value.Uses S K)) :
    I.applyTwice f first second = J.applyTwice f first second := by
  have hs : (State.mk (.call f [first]) [] I.limit).Holds (Value.Uses S K) (UsesUnder K) :=
    ⟨⟨hf, List.forall_mem_singleton.mpr hfirst⟩, List.forall_mem_nil _⟩
  rw [Interpreter.applyTwice_eq, Interpreter.applyTwice_eq, ← h.limit, ← h.run_eq hI hs]
  cases hrun : run I ⟨.call f [first], [], I.limit⟩ with
  | error err => rfl
  | ok p =>
    have hv : p.1.Every (Value.Uses S K) := (hI.reaches hs (reaches_of_run hrun)).control
    have ht : (State.mk (.call p.1 [second]) [] p.2).Holds (Value.Uses S K) (UsesUnder K) :=
      ⟨⟨hv, List.forall_mem_singleton.mpr hsecond⟩, List.forall_mem_nil _⟩
    rw [ok_bind, ok_bind, h.run_eq hI ht]

end Interpreter.AgreeOn

abbrev Interpreter.Names (J : Interpreter ν) : List String → List (Value ν) → Prop :=
  List.Forall₂ fun x v => J.globals.lookup x = some v

namespace Machine

variable [Host ν] (J : Interpreter ν) (frames : List (Frame ν)) (left : Nat)

theorem run_global {x : String} {v : Value ν} (h : J.globals.lookup x = some v) :
    run J ⟨.eval (.name x) [], frames, left⟩ = run J ⟨.ret v, frames, left⟩ :=
  run_name_some J frames left h

/-- Arguments that are names of globals are gathered without a call. -/
theorem run_gather_names {f : Value ν} {names : List String} {args : List (Value ν)}
    (h : J.Names names args) (done : List (Value ν)) :
    run J (gather f done [] frames left (names.map .name)) =
      run J ⟨.call f (done ++ args), frames, left⟩ := by
  induction h generalizing done with
  | nil => rw [List.append_nil, List.map_nil, gather]
  | @cons x v names args hx _ ih =>
    rw [List.map_cons, gather, run_global J _ left hx, run_ret_argument, ih,
      List.append_assoc, List.singleton_append]

theorem run_call_names {g : String} {f : Value ν} {names : List String} {args : List (Value ν)}
    (hg : J.globals.lookup g = some f) (h : J.Names names args) :
    run J ⟨.eval (.call (.name g) (names.map .name)) [], frames, left⟩ =
      run J ⟨.call f args, frames, left⟩ := by
  rw [run_callee, run_global J _ left hg, run_ret_callee, run_gather_names J frames left h,
    List.nil_append]

end Machine

namespace Interpreter

variable [Host ν] {J : Interpreter ν} {g : String} {f : Value ν}

theorem evaluate_call_names {names : List String} {args : List (Value ν)}
    (hg : J.globals.lookup g = some f) (h : J.Names names args) :
    J.evaluate (.call (.name g) (names.map .name)) = J.apply f args := by
  rw [evaluate, apply, run_call_names J [] J.limit hg h]

/-- A call of a result is made when the result is there, with the calls that are left then. -/
theorem evaluate_call_call {a b : String} {first second : Value ν}
    (hg : J.globals.lookup g = some f) (ha : J.globals.lookup a = some first)
    (hb : J.globals.lookup b = some second) :
    J.evaluate (.call (.call (.name g) [.name a]) [.name b]) = J.applyTwice f first second := by
  have hfirst : J.Names [a] [first] := .cons ha .nil
  have hsecond : J.Names [b] [second] := .cons hb .nil
  rw [evaluate, applyTwice_eq, run_callee]
  change (run J ⟨.eval (.call (.name g) ([a].map .name)) [], _, _⟩).map Prod.fst = _
  rw [run_call_names J _ J.limit hg hfirst, run_call_under]
  apply congrArg (Except.map Prod.fst)
  apply congrArg (run J ⟨.call f [first], [], J.limit⟩ >>= ·)
  funext p
  rw [run_ret_callee]
  exact run_gather_names J [] p.2 hsecond []

end Interpreter

def Interpreter.defineAll (I : Interpreter ν) (bindings : Env ν) : Interpreter ν :=
  bindings.foldl (fun I binding => I.define binding.1 binding.2) I

namespace Interpreter

theorem defineAll_eq (I : Interpreter ν) (bindings : Env ν) :
    I.defineAll bindings = ⟨bindings.reverse ++ I.globals, I.limit⟩ := by
  induction bindings generalizing I with
  | nil => rfl
  | cons binding bindings ih =>
    rw [defineAll, List.foldl_cons]
    change (I.define binding.1 binding.2).defineAll bindings = _
    rw [ih, define, List.reverse_cons, List.append_assoc, List.singleton_append]

variable {bindings : Env ν} {x : String} {v : Value ν}

/-- Each of the new globals is there, if no two have the same name. -/
theorem lookup_defineAll (I : Interpreter ν) (hnodup : (bindings.map Prod.fst).Nodup)
    (hmem : (x, v) ∈ bindings) : (I.defineAll bindings).globals.lookup x = some v := by
  obtain ⟨before, after, hsplit⟩ := List.append_of_mem hmem
  rw [defineAll_eq]
  apply List.lookup_eq_some_iff.mpr
  refine ⟨after.reverse, before.reverse ++ I.globals, by simp [hsplit], ?_⟩
  intro binding hb
  rw [hsplit, List.map_append, List.map_cons] at hnodup
  have hne : x ∉ after.map Prod.fst := (List.nodup_cons.mp (List.nodup_append.mp hnodup).2.1).1
  have hx : x ≠ binding.1 := by
    rintro rfl
    exact hne (List.mem_map_of_mem (List.mem_reverse.mp hb))
  simpa using hx

/-- Other names stand for what they stood for. -/
theorem agreeOn_defineAll (I : Interpreter ν) {K : String → Prop}
    (h : ∀ x ∈ bindings.map Prod.fst, ¬ K x) : I.AgreeOn K (I.defineAll bindings) := by
  rw [defineAll_eq]
  refine ⟨rfl, fun x hx => ?_⟩
  have hnone : bindings.reverse.lookup x = none := by
    apply List.lookup_eq_none_iff.mpr
    intro binding hb
    have hne : x ≠ binding.1 := by
      rintro rfl
      exact h _ (List.mem_map_of_mem (List.mem_reverse.mp hb)) hx
    simpa using hne
  simp only [List.lookup_append, hnone, Option.none_or]

/-- So they do for one definition. -/
theorem agreeOn_define (I : Interpreter ν) {K : String → Prop} {g : String} (hg : ¬ K g)
    (v : Value ν) : I.AgreeOn K (I.define g v) := by
  have hnames : ∀ x ∈ [(g, v)].map Prod.fst, ¬ K x := List.forall_mem_singleton.mpr hg
  exact I.agreeOn_defineAll hnames

end Interpreter

/-- No code in a value uses a name in `X`, unless as a parameter or as a name that it has captured.
Natives are among `S`. -/
abbrev Value.Spares (S : ν → Prop) (X : String → Prop) : Value ν → Prop :=
  Value.Every (Value.Uses S fun x => ¬ X x)

section

variable [Host ν] {S : ν → Prop} {X : String → Prop} {I : Interpreter ν} {f : Value ν} {g : String}

theorem Interpreter.apply_eq_evaluate
    (hI : Hereditary (Value.Uses S fun x => ¬ X x) (UsesUnder fun x => ¬ X x) I)
    (hf : f.Spares S X) {names : List String} {args : List (Value ν)}
    (hargs : ∀ a ∈ args, a.Spares S X) (hX : ∀ x ∈ g :: names, X x) (hnodup : (g :: names).Nodup)
    (hlen : names.length = args.length) :
    I.apply f args = (I.defineAll ((g, f) :: names.zip args)).evaluate
      (.call (.name g) (names.map .name)) := by
  have hkeys : ((g, f) :: names.zip args).map Prod.fst = g :: names := by
    rw [List.map_cons, List.map_fst_zip (Nat.le_of_eq hlen)]
  have hagree : I.AgreeOn (fun x => ¬ X x) (I.defineAll ((g, f) :: names.zip args)) := by
    apply I.agreeOn_defineAll
    rw [hkeys]
    exact fun x hx hno => hno (hX x hx)
  rw [← hkeys] at hnodup
  have hnames : (I.defineAll ((g, f) :: names.zip args)).Names names args := by
    apply List.forall₂_iff_zip.mpr
    exact ⟨hlen, fun hmem => I.lookup_defineAll hnodup (List.mem_cons_of_mem _ hmem)⟩
  rw [hagree.apply_eq hI hf hargs,
    evaluate_call_names (I.lookup_defineAll hnodup List.mem_cons_self) hnames]

theorem Interpreter.applyTwice_eq_evaluate
    (hI : Hereditary (Value.Uses S fun x => ¬ X x) (UsesUnder fun x => ¬ X x) I)
    (hf : f.Spares S X) {first second : Value ν} (hfirst : first.Spares S X)
    (hsecond : second.Spares S X) {a b : String} (hX : ∀ x ∈ [g, a, b], X x)
    (hnodup : [g, a, b].Nodup) :
    I.applyTwice f first second = (I.defineAll [(g, f), (a, first), (b, second)]).evaluate
      (.call (.call (.name g) [.name a]) [.name b]) := by
  have hagree : I.AgreeOn (fun x => ¬ X x) (I.defineAll [(g, f), (a, first), (b, second)]) := by
    apply I.agreeOn_defineAll
    exact fun x hx hno => hno (hX x hx)
  have hlookup : ∀ x v, (x, v) ∈ [(g, f), (a, first), (b, second)] →
      (I.defineAll [(g, f), (a, first), (b, second)]).globals.lookup x = some v :=
    fun x v => I.lookup_defineAll hnodup
  rw [hagree.applyTwice_eq hI hf hfirst hsecond, evaluate_call_call
    (hlookup g f (by simp)) (hlookup a first (by simp)) (hlookup b second (by simp))]

end

/-- Calling a value is the same as evaluating an expression that calls it under a name, as long as
the names in the expression are distinct and used by no code: neither in the globals, the value and
its arguments, nor in what functions of the host make out of such values. The same is true of
reading a Church numeral or boolean and of calling it with one argument after another. The outcomes
are the same under each limit, the one that exceeds it included. -/
theorem calls_eq_evaluation [Host ν] {S : ν → Prop} {X : String → Prop}
    (hS : Host.Keeps S (Value.Uses S fun x => ¬ X x)) {I : Interpreter ν}
    (hG : ∀ x v, I.globals.lookup x = some v → v.Spares S X) {f : Value ν} (hf : f.Spares S X) :
    (∀ g names args, (∀ x ∈ g :: names, X x) → (g :: names).Nodup → names.length = args.length →
      (∀ a ∈ args, a.Spares S X) →
        I.apply f args = (I.defineAll ((g, f) :: names.zip args)).evaluate
          (.call (.name g) (names.map .name))) ∧
    ∀ g a b, (∀ x ∈ [g, a, b], X x) → [g, a, b].Nodup →
      let e : Expr := .call (.call (.name g) [.name a]) [.name b]
      I.readNumeral f = ((I.defineAll [(g, f), (a, .ofBuiltin .inc), (b, .int 0)]).evaluate e >>=
        Value.toInt) ∧
      I.readBoolean f = ((I.defineAll [(g, f), (a, .int 1), (b, .int 0)]).evaluate e >>=
        Value.toBoolean) := by
  have hI : Hereditary (Value.Uses S fun x => ¬ X x) (UsesUnder fun x => ¬ X x) I :=
    hereditary_uses hS hG
  constructor
  · intro g names args hX hnodup hlen hargs
    exact Interpreter.apply_eq_evaluate hI hf hargs hX hnodup hlen
  · intro g a b hX hnodup e
    have hinc : (Value.ofBuiltin .inc : Value ν).Spares S X :=
      .intro trivial (List.forall_mem_nil _)
    have hint : ∀ n, (Value.int n : Value ν).Spares S X := fun n => Value.every_int trivial
    constructor
    · rw [Interpreter.readNumeral,
        Interpreter.applyTwice_eq_evaluate hI hf hinc (hint 0) hX hnodup]
    · rw [Interpreter.readBoolean,
        Interpreter.applyTwice_eq_evaluate hI hf (hint 1) (hint 0) hX hnodup]

/-- The host selects a function, which is then called with an argument that was left over and uses a
global. The numeral two is read with four calls, and not with three. -/
theorem calls_eq_evaluation_selected :
    let shift : Value Stock := .closure ["y"] (.call (.name "add") [.name "n", .name "y"])
      [("n", .int 3)]
    let two : Value Stock :=
      .closure ["f"] (.lam ["x"] (.call (.name "f") [.call (.name "f") [.name "x"]])) []
    let second : Value Stock := .native (.host .second) []
    let args : List (Value Stock) := [.int 1, shift, .int 2, .int 4]
    let I : Nat → Interpreter Stock := fun limit => ⟨Interpreter.builtins, limit⟩
    let named : Nat → Interpreter Stock := fun limit =>
      (I limit).defineAll [("g", two), ("a", .ofBuiltin .inc), ("b", .int 0)]
    let e : Expr := .call (.call (.name "g") [.name "a"]) [.name "b"]
    ((I 3).defineAll (("g", second) :: ["a", "b", "c", "d"].zip args)).evaluate
      (.call (.name "g") [.name "a", .name "b", .name "c", .name "d"]) = .ok (.int 7) ∧
    ((named 3).evaluate e >>= Value.toInt) = .error (.callLimit 3) ∧
    ((named 4).evaluate e >>= Value.toInt) = .ok 2 := by
  intro shift two second args I named e
  let X : String → Prop := (· ∈ ["g", "a", "b", "c", "d"])
  have hG : ∀ limit x v, (I limit).globals.lookup x = some v → v.Spares (· = .second) X := by
    intro limit x v hv
    obtain ⟨binding, hb, rfl⟩ := List.mem_map.mp (mem_of_lookup hv)
    obtain ⟨f, -, rfl⟩ := List.mem_map.mp hb
    exact .intro trivial (List.forall_mem_nil _)
  have hint : ∀ n, (Value.int n : Value Stock).Spares (· = .second) X :=
    fun n => Value.every_int trivial
  have hshift : shift.Spares (· = .second) X := by
    refine .intro ?_ (List.forall_mem_singleton.mpr (hint 3))
    have hfree : (Expr.call (.name "add") [.name "n", .name "y"]).freeNames =
        ["add", "n", "y"] := by rfl
    simp [shift, Value.Uses, hfree, X]
  have htwo : two.Spares (· = .second) X := by
    refine .intro ?_ (List.forall_mem_nil _)
    have hfree : (Expr.lam ["x"] (.call (.name "f") [.call (.name "f") [.name "x"]])).freeNames =
        ["f"] := by rfl
    simp [two, Value.Uses, hfree]
  have hsecond : second.Spares (· = .second) X := .intro rfl (List.forall_mem_nil _)
  have hargs : ∀ a ∈ args, a.Spares (· = .second) X := by
    simp only [args, List.forall_mem_cons]
    exact ⟨hint 1, hshift, hint 2, hint 4, List.forall_mem_nil _⟩
  have hkeeps := Stock.keeps_second (Value.Uses (· = .second) fun x => ¬ X x)
  obtain ⟨hcall, -⟩ := calls_eq_evaluation hkeeps (hG 3) hsecond
  have hread : ∀ limit, (I limit).readNumeral two = ((named limit).evaluate e >>= Value.toInt) :=
    fun limit => ((calls_eq_evaluation hkeeps (hG limit) htwo).2 "g" "a" "b" (by simp [X])
      (by decide)).1
  refine ⟨?_, ?_, ?_⟩
  · apply (hcall "g" ["a", "b", "c", "d"] args (by simp [X]) (by decide) rfl hargs).symm.trans
    cbv
  · rw [← hread 3]
    cbv
  · rw [← hread 4]
    cbv

namespace Machine

variable [Host ν] {S : ν → Prop} {I : Interpreter ν} {g : String}

/-- If the other globals do not use a name and it stands for an integer, there is no code among the
globals that uses it. -/
theorem hereditary_define_int (hS : Host.Keeps S (Value.Uses S fun x => ¬ x = g))
    (hG : ∀ x w, x ≠ g → I.globals.lookup x = some w → w.Spares S (· = g)) (n : Int64) :
    Hereditary (Value.Uses S fun x => ¬ x = g) (UsesUnder fun x => ¬ x = g)
      (I.define g (.int n)) := by
  apply hereditary_uses hS
  intro x w hw
  by_cases hx : x = g
  · subst hx
    rw [Interpreter.define, List.lookup_cons_self] at hw
    cases hw
    exact Value.every_int trivial
  · have hagree : I.AgreeOn (fun y => ¬ y = g) (I.define g (.int n)) :=
      I.agreeOn_define (fun h => h rfl) _
    exact hG x w hx ((hagree.globals x hx).trans hw)

/-- Code that does not use a name runs alike whatever the name stands for. -/
theorem run_define (hS : Host.Keeps S (Value.Uses S fun x => ¬ x = g))
    (hG : ∀ x w, x ≠ g → I.globals.lookup x = some w → w.Spares S (· = g)) {s : State ν}
    (hs : s.Holds (Value.Uses S fun x => ¬ x = g) (UsesUnder fun x => ¬ x = g)) (v : Value ν) :
    run (I.define g v) s = run I s := by
  -- The old value and the new one may use the name themselves, so neither interpreter is free of
  -- such code. Both agree with a third one that is.
  have hfree := hereditary_define_int hS hG 0
  have hg : ¬ ¬ g = g := fun h => h rfl
  have hold : (I.define g (.int 0)).AgreeOn (fun x => ¬ x = g) I := (I.agreeOn_define hg _).symm
  have hnew : (I.define g (.int 0)).AgreeOn (fun x => ¬ x = g) (I.define g v) :=
    hold.trans (I.agreeOn_define hg v)
  calc
    run (I.define g v) s = run (I.define g (.int 0)) s := (hnew.run_eq hfree hs).symm
    _ = run I s := hold.run_eq hfree hs

end Machine

/-- A global can be defined, or be given another value, without any difference to the evaluation of
an expression, as long as its name is free neither in the expression nor in the code of the other
globals, nor in what functions of the host make out of such values. Evaluation comes to the same
value or the same error, and with as many calls left, whatever the number it starts with. The code
of the old value and of the new one may use the name: it is never reached. -/
theorem evaluate_define_of_unused [Host ν] {S : ν → Prop} {g : String}
    (hS : Host.Keeps S (Value.Uses S fun x => ¬ x = g)) {I : Interpreter ν}
    (hG : ∀ x w, x ≠ g → I.globals.lookup x = some w → w.Spares S (· = g)) {e : Expr}
    (he : g ∉ e.freeNames) (v : Value ν) :
    (I.define g v).evaluate e = I.evaluate e ∧
      ∀ left, run (I.define g v) ⟨.eval e [], [], left⟩ = run I ⟨.eval e [], [], left⟩ := by
  have hrun : ∀ left, run (I.define g v) ⟨.eval e [], [], left⟩ = run I ⟨.eval e [], [], left⟩ := by
    intro left
    have hs : (State.mk (.eval e []) [] left).Holds (Value.Uses S fun x => ¬ x = g)
        (UsesUnder fun x => ¬ x = g) := by
      refine ⟨⟨?_, List.forall_mem_nil _⟩, List.forall_mem_nil _⟩
      intro x hx
      apply Or.inr
      rintro rfl
      exact he hx
    exact run_define hS hG hs v
  refine ⟨?_, hrun⟩
  rw [Interpreter.evaluate, Interpreter.evaluate, hrun]
  rfl

/-- A function that has captured a name is selected by the host and called while the global of that
name, which calls itself, is replaced by another one. Three calls are needed before and after. -/
theorem evaluate_define_of_unused_captured :
    let shift : Value Stock := .closure ["y"] (.call (.name "add") [.name "n", .name "y"])
      [("n", .int 3)]
    let loop : Value Stock := .closure [] (.call (.name "n") []) []
    let other : Value Stock := .closure ["z"] (.name "n") []
    let I : Nat → Interpreter Stock := fun limit =>
      ⟨("n", loop) :: ("shift", shift) :: ("second", .native (.host .second) []) ::
        Interpreter.builtins, limit⟩
    let e : Expr := .call (.name "second") [.int 1, .name "shift", .int 2, .int 4]
    ((I 3).define "n" other).evaluate e = .ok (.int 7) ∧
      ((I 2).define "n" other).evaluate e = .error (.callLimit 2) := by
  intro shift loop other I e
  have hshift : shift.Spares (· = .second) (· = "n") := by
    refine .intro ?_ (List.forall_mem_singleton.mpr (Value.every_int trivial))
    have hfree : (Expr.call (.name "add") [.name "n", .name "y"]).freeNames =
        ["add", "n", "y"] := by rfl
    simp [shift, Value.Uses, hfree]
  have hG : ∀ limit x w, x ≠ "n" → (I limit).globals.lookup x = some w →
      w.Spares (· = .second) (· = "n") := by
    intro limit x w hx hw
    obtain ⟨before, after, hsplit, -⟩ := List.lookup_eq_some_iff.mp hw
    have hmem : (x, w) ∈ (I limit).globals := by simp [hsplit]
    rcases List.mem_cons.mp hmem with h | hmem
    · exact absurd (congrArg Prod.fst h) hx
    rcases List.mem_cons.mp hmem with h | hmem
    · cases h
      exact hshift
    rcases List.mem_cons.mp hmem with h | hmem
    · cases h
      exact .intro rfl (List.forall_mem_nil _)
    · obtain ⟨f, -, hf⟩ := List.mem_map.mp hmem
      cases hf
      exact .intro trivial (List.forall_mem_nil _)
  have hkeeps := Stock.keeps_second (Value.Uses (· = .second) fun x => ¬ x = "n")
  have hfree : e.freeNames = ["second", "shift"] := by rfl
  have he : "n" ∉ e.freeNames := by simp [hfree]
  have hsame : ∀ limit, ((I limit).define "n" other).evaluate e = (I limit).evaluate e :=
    fun limit => (evaluate_define_of_unused hkeeps (hG limit) he other).1
  rw [hsame, hsame]
  constructor
  · cbv
  · cbv

end Curried
