import Curried.Interpreter
import Curried.Proofs.Invariant
import Curried.Proofs.ReadBack
import Curried.Value

namespace Curried

variable {ν : Type}

/-- All functions are curried, and natives are built-in functions. -/
def Value.CurriedCode : Value ν → Prop
  | int _ => True
  | closure params body _ => (Expr.lam params body).isCurried = true
  | native f _ => ∃ b, f = .builtin b

namespace Expr

theorem isCurried_lam_iff {params : List String} {body : Expr} :
    (lam params body).isCurried = true ↔ params.length = 1 ∧ body.isCurried = true := by
  simp [isCurried]

theorem isCurried_call_iff {f : Expr} {args : List Expr} :
    (call f args).isCurried = true ↔
      args.length = 1 ∧ f.isCurried = true ∧ ∀ a ∈ args, a.isCurried = true := by
  simp [isCurried, areCurried_eq_all, and_assoc]

end Expr

namespace Machine

def Frame.Single : Frame ν → Prop
  | callee args _ => args.length = 1
  | argument _ done todo _ => done = [] ∧ todo = []
  | leftover _ => False

inductive State.Single : State ν → Prop
  | eval (e : Expr) (env : Env ν) {frames : List (Frame ν)} (left : Nat) :
      (∀ frame ∈ frames, frame.Single) → Single ⟨.eval e env, frames, left⟩
  | ret (v : Value ν) {frames : List (Frame ν)} (left : Nat) :
      (∀ frame ∈ frames, frame.Single) → Single ⟨.ret v, frames, left⟩
  | call (f a : Value ν) {frames : List (Frame ν)} (left : Nat) :
      (∀ frame ∈ frames, frame.Single) → Single ⟨.call f [a], frames, left⟩
  | rest (n : Int64) (args : List (Value ν)) (frames : List (Frame ν)) (left : Nat) :
      Single ⟨.ret (.int n), .leftover args :: frames, left⟩
  | refused (n : Int64) (args : List (Value ν)) (frames : List (Frame ν)) (left : Nat) :
      Single ⟨.call (.int n) args, frames, left⟩

variable [Host ν] {I : Interpreter ν}

theorem hereditary_curried
    (hG : ∀ x v, I.globals.lookup x = some v → v.Every Value.CurriedCode) :
    Hereditary Value.CurriedCode (fun _ e => e.isCurried = true) I where
  int n := trivial
  closure := Iff.rfl
  body h := (Expr.isCurried_lam_iff.mp h).2
  call h := (Expr.isCurried_call_iff.mp h).2
  wait hf _ := hf
  run hf _ _ hv := by
    obtain ⟨b, rfl⟩ := hf
    obtain ⟨n, rfl⟩ := Builtin.exists_int_of_run hv
    exact Value.every_int trivial
  globals hv := hG _ _ hv

/-- With curried code, a step leaves one argument for each call. -/
theorem State.Single.step {s t : State ν} (h : s.Single)
    (hs : s.Holds Value.CurriedCode fun _ e => e.isCurried = true)
    (ht : step I s = .ok (.next t)) : t.Single := by
  have hstep := step_advances I s
  rw [ht] at hstep
  cases hstep with
  | int n env frames left =>
    cases h with
    | eval _ _ _ hframes => exact .ret _ left hframes
  | name frames left hv =>
    cases h with
    | eval _ _ _ hframes => exact .ret _ left hframes
  | lam params body env frames left =>
    cases h with
    | eval _ _ _ hframes => exact .ret _ left hframes
  | call f args env frames left =>
    cases h with
    | eval _ _ _ hframes =>
      have hone : (Frame.callee args env).Single := (Expr.isCurried_call_iff.mp hs.control.1).1
      exact .eval f env left (List.forall_mem_cons.mpr ⟨hone, hframes⟩)
  | callee v args env frames left =>
    cases h with
    | ret _ _ hframes =>
      obtain ⟨hone, hrest⟩ := List.forall_mem_cons.mp hframes
      obtain ⟨a, rfl⟩ := List.length_eq_one_iff.mp hone
      have hlast : (Frame.argument v [] [] env).Single := ⟨rfl, rfl⟩
      exact .eval a env left (List.forall_mem_cons.mpr ⟨hlast, hrest⟩)
  | argument v f done todo env frames left =>
    cases h with
    | ret _ _ hframes =>
      obtain ⟨⟨rfl, rfl⟩, hrest⟩ := List.forall_mem_cons.mp hframes
      exact .call f v left hrest
  | leftover v args frames left =>
    cases h with
    | ret _ _ hframes => exact (List.forall_mem_cons.mp hframes).1.elim
    | rest n _ _ _ => exact .refused n args frames left
  | enter frames left hr =>
    cases h with
    | call _ _ _ hframes => exact .eval _ _ left hframes
    | refused n _ _ _ => cases hr
  | yield frames left hr =>
    cases h with
    | call _ _ _ hframes => exact .ret _ left hframes
    | refused n _ _ _ => cases hr
  | leave frames left hne hr =>
    cases hr with
    | wait _ _ => exact absurd rfl hne
    | run _ _ _ hv =>
      obtain ⟨b, rfl⟩ := hs.control.1.self
      obtain ⟨n, rfl⟩ := Builtin.exists_int_of_run hv
      exact .rest n _ frames left

/-- A call with one argument does not fail on their number. -/
theorem State.Single.ne_arity {s : State ν} (h : s.Single)
    (hs : s.Holds Value.CurriedCode fun _ e => e.isCurried = true) {callee : String}
    {expected found : Nat} : ¬ Advances I s (.error (.arity callee expected found)) := by
  intro hfail
  cases hfail with
  | fail frames left hr =>
    cases h with
    -- An integer is refused as such, with no word about the number of arguments.
    | refused n _ _ _ => cases hr
    | call f a _ hframes =>
      cases hr with
      | misfit hl => exact hl (Expr.isCurried_lam_iff.mp hs.control.1.self).1
      | fail _ _ hlen hrun =>
        obtain ⟨b, rfl⟩ := hs.control.1.self
        obtain ⟨v, hv⟩ := Builtin.mismatch_of_run hlen hrun
        cases hv

theorem State.Single.reaches (hG : ∀ x v, I.globals.lookup x = some v → v.Every Value.CurriedCode)
    {s t : State ν} (h : s.Single) (hs : s.Holds Value.CurriedCode fun _ e => e.isCurried = true)
    (ht : Reaches I s t) : t.Single := by
  induction ht with
  | refl => exact h
  | tail hu hstep ih => exact ih.step ((hereditary_curried hG).reaches hs hu) hstep

end Machine

/-- Evaluating curried code does not fail on the number of arguments. -/
theorem Interpreter.evaluate_ne_arity [Host ν] {I : Interpreter ν}
    (hG : ∀ x v, I.globals.lookup x = some v → v.Every Value.CurriedCode) {e : Expr}
    (he : e.isCurried = true) (callee : String) (expected found : Nat) :
    I.evaluate e ≠ .error (.arity callee expected found) := by
  intro h
  obtain ⟨t, ht, hfail⟩ := Machine.exists_error_of_run (except_map_eq_error_iff.mp h)
  have hstart : (Machine.State.mk (.eval e []) [] I.limit : Machine.State ν).Holds Value.CurriedCode
      fun _ e => e.isCurried = true := ⟨⟨he, List.forall_mem_nil _⟩, List.forall_mem_nil _⟩
  have hsingle : (Machine.State.mk (.eval e []) [] I.limit : Machine.State ν).Single :=
    .eval e [] I.limit (List.forall_mem_nil _)
  have hheld := (Machine.hereditary_curried hG).reaches hstart ht
  exact (hsingle.reaches hG hstart ht).ne_arity hheld hfail

/-- Without an expression nothing is evaluated. -/
theorem Program.tree_ne_eval (text : String) (err : EvalError) :
    tree text ≠ .error (.eval err) := by
  intro h
  rcases except_bind_eq_error_iff.mp h with hterm | ⟨t, -, hread⟩
  · rcases except_bind_eq_error_iff.mp hterm with hparse | ⟨e, -, hterm⟩
    · obtain ⟨d, -, hd⟩ := except_mapError_eq_error_iff.mp hparse
      cases hd
    rcases except_bind_eq_error_iff.mp hterm with hname | ⟨c, -, hc⟩
    · obtain ⟨d, -, hd⟩ := except_mapError_eq_error_iff.mp hname
      cases hd
    · cases hc
  · obtain ⟨d, -, hd⟩ := except_mapError_eq_error_iff.mp hread
    cases hd

/-- A program that fails in its evaluation is that of an expression read back from a term. -/
theorem Program.exists_of_run_eq_eval [Host ν] {I : Interpreter ν} {text : String}
    {err : EvalError} (h : run I text = .error (.eval err)) :
    ∃ t : Term, ∃ e, t.toExpr = .ok e ∧ I.evaluate e = .error err := by
  rcases except_bind_eq_error_iff.mp h with htree | ⟨e, he, h⟩
  · exact absurd htree (tree_ne_eval text err)
  · obtain ⟨t, -, he⟩ := except_bind_eq_ok_iff.mp he
    obtain ⟨d, hv, hd⟩ := except_mapError_eq_error_iff.mp h
    cases hd
    exact ⟨t, e, except_mapError_eq_ok_iff.mp he, hv⟩

/-- No text has a value that fails on the number of arguments of a call, whatever the limit, if the
globals are integers, built-in functions with any arguments received, and curried functions. -/
theorem run_ne_arity [Host ν] {I : Interpreter ν}
    (hG : ∀ x v, I.globals.lookup x = some v → v.Every Value.CurriedCode) (text callee : String)
    (expected found : Nat) :
    Program.run I text ≠ .error (.eval (.arity callee expected found)) := by
  intro h
  obtain ⟨t, e, he, hfail⟩ := Program.exists_of_run_eq_eval h
  have hcurried : e.isCurried = true := by
    obtain ⟨-, -, rfl⟩ := Term.toExpr_eq_ok_iff.mp he
    exact t.isCurried_spell
  exact Interpreter.evaluate_ne_arity hG hcurried callee expected found hfail

/-- A function of two parameters that is called with one argument fails as it stands, and not as a
program. One of the globals has received an argument, another has captured it. -/
theorem run_ne_arity_uncurried :
    let globals : Env Stock :=
      ("next", .native (.builtin .add) [.int 1]) ::
        ("again", .closure ["x"] (.call (.name "f") [.call (.name "f") [.name "x"]])
          [("f", .native (.builtin .add) [.int 1])]) :: Interpreter.builtins
    let I : Interpreter Stock := ⟨globals, 10⟩
    I.evaluate (.call (.lam ["a", "b"] (.name "a")) [.name "next"]) =
        .error (.arity "<lambda a, b>" 2 1) ∧
      ∀ expected found callee,
        Program.run I "((a, b) -> a)(next)" ≠ .error (.eval (.arity callee expected found)) := by
  intro globals I
  have hnext : (Value.native (.builtin .add) [.int 1] : Value Stock).Every Value.CurriedCode :=
    .intro ⟨_, rfl⟩ (List.forall_mem_singleton.mpr (Value.every_int trivial))
  have hvalues : ∀ v ∈ globals.map Prod.snd, v.Every Value.CurriedCode := by
    intro v hv
    rcases List.mem_cons.mp hv with rfl | hv
    · exact hnext
    rcases List.mem_cons.mp hv with rfl | hv
    · exact .intro rfl (List.forall_mem_singleton.mpr hnext)
    · obtain ⟨binding, hb, rfl⟩ := List.mem_map.mp hv
      obtain ⟨f, -, rfl⟩ := List.mem_map.mp hb
      exact .intro ⟨f, rfl⟩ (List.forall_mem_nil _)
  refine ⟨by cbv, ?_⟩
  intro expected found callee
  exact run_ne_arity (fun x v hv => hvalues v (Machine.mem_of_lookup hv)) _ callee expected found

end Curried
