import Curried.Interpreter
import Curried.Proofs.Related
import Curried.Value
import Mathlib.Logic.Relation

/-!
Properties of all values and all code in a machine. A step makes values out of those that are there,
of pending code and of globals, so it keeps each property that these pass on. What holds where a run
starts then holds in all states that it reaches, in the one where it fails too.
-/

namespace Curried

variable {ν : Type}

namespace Value

def parts : Value ν → List (Value ν)
  | int _ => []
  | closure _ _ env => env.map Prod.snd
  | native _ received => received

inductive Every (Q : Value ν → Prop) : Value ν → Prop
  | intro {v : Value ν} : Q v → (∀ w ∈ v.parts, Every Q w) → Every Q v

variable {Q : Value ν → Prop} {v : Value ν}

theorem Every.self (h : v.Every Q) : Q v := by
  cases h with
  | intro hv _ => exact hv

theorem Every.parts (h : v.Every Q) : ∀ w ∈ v.parts, w.Every Q := by
  cases h with
  | intro _ hp => exact hp

theorem every_int {n : Int64} (h : Q (.int n)) : (int n).Every Q :=
  .intro h (List.forall_mem_nil _)

end Value

def Native.Among (S : ν → Prop) : Native ν → Prop
  | builtin _ => True
  | host f => S f

/-- A built-in function gives integers only. -/
theorem Builtin.exists_int_of_run [Signature ν] {f : Builtin} {args : List (Value ν)} {v : Value ν}
    (h : f.run args = .ok v) : ∃ n, v = .int n := by
  rw [Builtin.run_eq] at h
  split at h
  · obtain ⟨ns, -, hv⟩ := except_bind_eq_ok_iff.mp h
    cases hv
    exact ⟨f.compute ns, rfl⟩
  · cases h

theorem mismatch_of_mapM_toInt [Signature ν] {args : List (Value ν)} {err : EvalError}
    (h : args.mapM Value.toInt = .error err) : ∃ v, err = .mismatch "integer" v := by
  induction args with
  | nil => cases h
  | cons a args ih =>
    rw [List.mapM_cons] at h
    rcases except_bind_eq_error_iff.mp h with ha | ⟨n, -, h⟩
    · cases a with
      | int n => cases ha
      | closure _ _ _ | native _ _ =>
        cases ha
        exact ⟨_, rfl⟩
    · -- The first argument is read, so the failure is that of a later one.
      rcases except_bind_eq_error_iff.mp h with hargs | ⟨ns, -, h⟩
      · exact ih hargs
      · cases h

/-- A built-in function with all its arguments fails on one that is no integer, and only so. -/
theorem Builtin.mismatch_of_run [Signature ν] {f : Builtin} {args : List (Value ν)}
    {err : EvalError} (hl : args.length = f.arity) (h : f.run args = .error err) :
    ∃ v, err = .mismatch "integer" v := by
  rw [Builtin.run_eq, if_pos hl] at h
  rcases except_bind_eq_error_iff.mp h with hargs | ⟨ns, -, h⟩
  · exact mismatch_of_mapM_toInt hargs
  · cases h

/-- The functions of the host in `S` keep a property of values: if it holds of the arguments and the
values inside them, it holds of what they give. -/
def Host.Keeps [Host ν] (S : ν → Prop) (Q : Value ν → Prop) : Prop :=
  ∀ f, S f → ∀ args v, (∀ a ∈ args, a.Every Q) → Host.run f args = .ok v → v.Every Q

/-- Built-in functions keep what holds of integers. -/
theorem Host.Keeps.run [Host ν] {S : ν → Prop} {Q : Value ν → Prop} (h : Host.Keeps S Q)
    (hint : ∀ n, Q (.int n)) {f : Native ν} (hf : f.Among S) {args : List (Value ν)}
    (hargs : ∀ a ∈ args, a.Every Q) {v : Value ν} (hv : f.run args = .ok v) : v.Every Q := by
  cases f with
  | builtin f =>
    obtain ⟨n, rfl⟩ := Builtin.exists_int_of_run hv
    exact Value.every_int (hint n)
  | host f => exact h f hf args v hargs hv

/-- What selects an argument keeps every property. -/
theorem Stock.keeps_second (Q : Value Stock → Prop) : Host.Keeps (· = Stock.second) Q := by
  rintro f rfl args v hargs hv
  change Stock.run .second args = .ok v at hv
  match args with
  | [a, b, c] =>
    cases hv
    exact hargs v (by simp)
  | [] | [_] | [_, _] | _ :: _ :: _ :: _ :: _ => cases hv

namespace Value

section

variable [Host ν] {f : Native ν} {received args : List (Value ν)}

/-- A native that has too few arguments waits with those that it has. -/
theorem react_of_lt (hne : args ≠ []) (h : (received ++ args).length < f.arity) :
    (native f received).react args = .ok (.yield (.native f (received ++ args)) []) := by
  simp only [react, List.isEmpty_eq_false_iff.mpr hne, Bool.false_eq_true, ↓reduceIte, if_pos h]

/-- A native that has enough arguments runs on as many as its arity and leaves the rest. -/
theorem react_of_append {taken rest : List (Value ν)} (hne : args ≠ [])
    (hcut : received ++ args = taken ++ rest) (hlen : taken.length = f.arity) :
    (native f received).react args = f.run taken >>= fun v => .ok (.yield v rest) := by
  have hge : ¬ (taken ++ rest).length < f.arity := by
    rw [List.length_append]
    omega
  simp only [react, List.isEmpty_eq_false_iff.mpr hne, Bool.false_eq_true, ↓reduceIte, hcut,
    if_neg hge, List.take_left' hlen, List.drop_left' hlen]
  rfl

end

theorem exists_taken {vs : List (Value ν)} {n : Nat} (h : n ≤ vs.length) :
    ∃ taken rest, vs = taken ++ rest ∧ taken.length = n :=
  ⟨vs.take n, vs.drop n, (List.take_append_drop n vs).symm, List.length_take_of_le h⟩

inductive Answers [Host ν] : Value ν → List (Value ν) → Except EvalError (Reaction ν) → Prop
  | refuse (n : Int64) (args : List (Value ν)) :
      Answers (.int n) args (.error (.notCallable (Value.int n : Value ν).render))
  | enter {params : List String} {body : Expr} {env : Env ν} {args : List (Value ν)} :
      params.length = args.length →
      Answers (.closure params body env) args (.ok (.enter body ((params.zip args).reverse ++ env)))
  | misfit {params : List String} {body : Expr} {env : Env ν} {args : List (Value ν)} :
      params.length ≠ args.length →
      Answers (.closure params body env) args
        (.error (.arity (Value.closure params body env).render params.length args.length))
  | idle (f : Native ν) (received : List (Value ν)) :
      Answers (.native f received) []
        (.error (.arity (Value.native f received).render (f.missing received.length) 0))
  | wait {f : Native ν} {received args : List (Value ν)} :
      args ≠ [] → (received ++ args).length < f.arity →
      Answers (.native f received) args (.ok (.yield (.native f (received ++ args)) []))
  | run {f : Native ν} {received args taken rest : List (Value ν)} {v : Value ν} :
      args ≠ [] → received ++ args = taken ++ rest → taken.length = f.arity →
      f.run taken = .ok v → Answers (.native f received) args (.ok (.yield v rest))
  | fail {f : Native ν} {received args taken rest : List (Value ν)} {err : EvalError} :
      args ≠ [] → received ++ args = taken ++ rest → taken.length = f.arity →
      f.run taken = .error err → Answers (.native f received) args (.error err)

theorem react_answers [Host ν] (callee : Value ν) (args : List (Value ν)) :
    callee.Answers args (callee.react args) := by
  cases callee with
  | int n => exact .refuse n args
  | closure params body env =>
    simp only [react]
    split
    · next h => exact .enter h
    · next h => exact .misfit h
  | native f received =>
    by_cases hne : args = []
    · subst hne
      exact .idle f received
    by_cases hlt : (received ++ args).length < f.arity
    · rw [react_of_lt hne hlt]
      exact .wait hne hlt
    · obtain ⟨taken, rest, hcut, hlen⟩ := exists_taken (Nat.le_of_not_lt hlt)
      rw [react_of_append hne hcut hlen]
      cases hr : f.run taken with
      | error err => exact .fail hne hcut hlen hr
      | ok v => exact .run hne hcut hlen hr

end Value

namespace Machine

/-- What one step does. Code is evaluated without a call, a value goes to the frame that waits for
it, and a call takes one of those left and goes on as its callee answers. -/
inductive Advances [Host ν] (I : Interpreter ν) :
    State ν → Except EvalError (Progress ν) → Prop
  | int (n : Int64) (env : Env ν) (frames : List (Frame ν)) (left : Nat) :
      Advances I ⟨.eval (.int n) env, frames, left⟩ (.ok (.next ⟨.ret (.int n), frames, left⟩))
  | name {x : String} {env : Env ν} {v : Value ν} (frames : List (Frame ν)) (left : Nat) :
      (env.lookup x).or (I.globals.lookup x) = some v →
      Advances I ⟨.eval (.name x) env, frames, left⟩ (.ok (.next ⟨.ret v, frames, left⟩))
  | unbound {x : String} {env : Env ν} (frames : List (Frame ν)) (left : Nat) :
      (env.lookup x).or (I.globals.lookup x) = none →
      Advances I ⟨.eval (.name x) env, frames, left⟩ (.error (.unbound x))
  | lam (params : List String) (body : Expr) (env : Env ν) (frames : List (Frame ν)) (left : Nat) :
      Advances I ⟨.eval (.lam params body) env, frames, left⟩
        (.ok (.next ⟨.ret (.closure params body env), frames, left⟩))
  | call (f : Expr) (args : List Expr) (env : Env ν) (frames : List (Frame ν)) (left : Nat) :
      Advances I ⟨.eval (.call f args) env, frames, left⟩
        (.ok (.next ⟨.eval f env, .callee args env :: frames, left⟩))
  | done (v : Value ν) (left : Nat) : Advances I ⟨.ret v, [], left⟩ (.ok (.done v left))
  | callee (v : Value ν) (args : List Expr) (env : Env ν) (frames : List (Frame ν)) (left : Nat) :
      Advances I ⟨.ret v, .callee args env :: frames, left⟩
        (.ok (.next (gather v [] env frames left args)))
  | argument (v f : Value ν) (done : List (Value ν)) (todo : List Expr) (env : Env ν)
      (frames : List (Frame ν)) (left : Nat) :
      Advances I ⟨.ret v, .argument f done todo env :: frames, left⟩
        (.ok (.next (gather f (done ++ [v]) env frames left todo)))
  | leftover (v : Value ν) (args : List (Value ν)) (frames : List (Frame ν)) (left : Nat) :
      Advances I ⟨.ret v, .leftover args :: frames, left⟩ (.ok (.next ⟨.call v args, frames, left⟩))
  | limit (f : Value ν) (args : List (Value ν)) (frames : List (Frame ν)) :
      Advances I ⟨.call f args, frames, 0⟩ (.error (.callLimit I.limit))
  | fail {f : Value ν} {args : List (Value ν)} {err : EvalError} (frames : List (Frame ν))
      (left : Nat) : f.Answers args (.error err) →
      Advances I ⟨.call f args, frames, left + 1⟩ (.error err)
  | enter {f : Value ν} {args : List (Value ν)} {body : Expr} {env : Env ν}
      (frames : List (Frame ν)) (left : Nat) : f.Answers args (.ok (.enter body env)) →
      Advances I ⟨.call f args, frames, left + 1⟩ (.ok (.next ⟨.eval body env, frames, left⟩))
  | yield {f v : Value ν} {args : List (Value ν)} (frames : List (Frame ν)) (left : Nat) :
      f.Answers args (.ok (.yield v [])) →
      Advances I ⟨.call f args, frames, left + 1⟩ (.ok (.next ⟨.ret v, frames, left⟩))
  | leave {f v : Value ν} {args rest : List (Value ν)} (frames : List (Frame ν)) (left : Nat) :
      rest ≠ [] → f.Answers args (.ok (.yield v rest)) →
      Advances I ⟨.call f args, frames, left + 1⟩
        (.ok (.next ⟨.ret v, .leftover rest :: frames, left⟩))

theorem step_advances [Host ν] (I : Interpreter ν) (s : State ν) : Advances I s (step I s) := by
  rcases s with ⟨control, frames, left⟩
  match control, frames with
  | .eval (.int n) env, frames => exact .int n env frames left
  | .eval (.name x) env, frames =>
    simp only [step]
    split
    · next v hv => exact .name frames left hv
    · next hn => exact .unbound frames left hn
  | .eval (.lam params body) env, frames => exact .lam params body env frames left
  | .eval (.call f args) env, frames => exact .call f args env frames left
  | .ret v, [] => exact .done v left
  | .ret v, .callee args env :: frames => exact .callee v args env frames left
  | .ret v, .argument f done todo env :: frames => exact .argument v f done todo env frames left
  | .ret v, .leftover args :: frames => exact .leftover v args frames left
  | .call f args, frames =>
    cases left with
    | zero => exact .limit f args frames
    | succ left =>
      have hr := f.react_answers args
      simp only [step]
      cases hreact : f.react args with
      | error err => exact .fail frames left (hreact ▸ hr)
      | ok reaction =>
        rw [hreact] at hr
        cases reaction with
        | enter body env => exact .enter frames left hr
        | yield v rest =>
          cases rest with
          | nil => exact .yield frames left hr
          | cons a rest => exact .leave frames left (List.cons_ne_nil a rest) hr

variable (Q : Value ν → Prop) (P : List String → Expr → Prop)

def Control.Holds : Control ν → Prop
  | eval e env => P (env.map Prod.fst) e ∧ ∀ v ∈ env.map Prod.snd, v.Every Q
  | ret v => v.Every Q
  | call f args => f.Every Q ∧ ∀ a ∈ args, a.Every Q

def Frame.Holds : Frame ν → Prop
  | callee args env => (∀ a ∈ args, P (env.map Prod.fst) a) ∧ ∀ v ∈ env.map Prod.snd, v.Every Q
  | argument f done todo env =>
    f.Every Q ∧ (∀ v ∈ done, v.Every Q) ∧ (∀ a ∈ todo, P (env.map Prod.fst) a) ∧
      ∀ v ∈ env.map Prod.snd, v.Every Q
  | leftover args => ∀ a ∈ args, a.Every Q

structure State.Holds (s : State ν) : Prop where
  control : s.control.Holds Q P
  frames : ∀ frame ∈ s.frames, frame.Holds Q P

/-- The properties `Q` of values and `P` of code are passed on: from a function to its closures and
to its body, from a call to its parts, from a native to what it gives, and from the globals. -/
structure Hereditary [Host ν] (I : Interpreter ν) : Prop where
  int (n : Int64) : Q (.int n)
  closure {params : List String} {body : Expr} {env : Env ν} :
    Q (.closure params body env) ↔ P (env.map Prod.fst) (.lam params body)
  body {names params : List String} {body : Expr} :
    P names (.lam params body) → P (params.reverse ++ names) body
  call {names : List String} {f : Expr} {args : List Expr} :
    P names (.call f args) → P names f ∧ ∀ a ∈ args, P names a
  wait {f : Native ν} {received args : List (Value ν)} :
    Q (.native f received) → (received ++ args).length < f.arity →
      Q (.native f (received ++ args))
  run {f : Native ν} {received args : List (Value ν)} {v : Value ν} :
    Q (.native f received) → args.length = f.arity → (∀ a ∈ args, a.Every Q) →
      f.run args = .ok v → v.Every Q
  globals {x : String} {v : Value ν} : I.globals.lookup x = some v → v.Every Q

variable {Q P}

theorem mem_of_lookup {env : Env ν} {x : String} {v : Value ν} (h : env.lookup x = some v) :
    v ∈ env.map Prod.snd := by
  obtain ⟨before, after, rfl, -⟩ := List.lookup_eq_some_iff.mp h
  simp

theorem holds_gather {f : Value ν} {done : List (Value ν)} {todo : List Expr} {env : Env ν}
    {frames : List (Frame ν)} (left : Nat) (hf : (Frame.argument f done todo env).Holds Q P)
    (hframes : ∀ frame ∈ frames, frame.Holds Q P) :
    (gather f done env frames left todo).Holds Q P := by
  obtain ⟨hcallee, hdone, htodo, henv⟩ := hf
  cases todo with
  | nil => exact ⟨⟨hcallee, hdone⟩, hframes⟩
  | cons a todo =>
    obtain ⟨ha, htodo⟩ := List.forall_mem_cons.mp htodo
    have hframe : (Frame.argument f done todo env).Holds Q P := ⟨hcallee, hdone, htodo, henv⟩
    exact ⟨⟨ha, henv⟩, List.forall_mem_cons.mpr ⟨hframe, hframes⟩⟩

variable [Host ν] {I : Interpreter ν}

namespace Hereditary

/-- A name stands for a value that it is bound to around it, or for a global. -/
theorem lookup (h : Hereditary Q P I) {env : Env ν} {x : String} {v : Value ν}
    (henv : ∀ w ∈ env.map Prod.snd, w.Every Q)
    (hv : (env.lookup x).or (I.globals.lookup x) = some v) : v.Every Q := by
  rcases Option.or_eq_some_iff.mp hv with hv | ⟨-, hv⟩
  · exact henv v (mem_of_lookup hv)
  · exact h.globals hv

/-- The body of a function is entered with the arguments in front of what was captured. -/
theorem enter (h : Hereditary Q P I) {f : Value ν} {args : List (Value ν)} {body : Expr}
    {env : Env ν} (hf : f.Every Q) (hargs : ∀ a ∈ args, a.Every Q)
    (hr : f.Answers args (.ok (.enter body env))) : (Control.eval body env).Holds Q P := by
  cases hr with
  | enter hl =>
    simp only [Control.Holds, fst_bind hl, snd_bind hl]
    refine ⟨h.body (h.closure.mp hf.self), ?_⟩
    intro v hv
    rcases List.mem_append.mp hv with hv | hv
    · exact hargs v (List.mem_reverse.mp hv)
    · exact hf.parts v hv

/-- What a native waits with, gives and leaves is made of what it has received. -/
theorem yield (h : Hereditary Q P I) {f v : Value ν} {args rest : List (Value ν)}
    (hf : f.Every Q) (hargs : ∀ a ∈ args, a.Every Q)
    (hr : f.Answers args (.ok (.yield v rest))) : v.Every Q ∧ ∀ a ∈ rest, a.Every Q := by
  have hall := List.forall_mem_append.mpr ⟨hf.parts, hargs⟩
  cases hr with
  | wait _ hlt => exact ⟨.intro (h.wait hf.self hlt) hall, List.forall_mem_nil _⟩
  | run _ hcut hlen hv =>
    simp only [Value.parts, hcut] at hall
    obtain ⟨htaken, hrest⟩ := List.forall_mem_append.mp hall
    exact ⟨h.run hf.self hlen htaken hv, hrest⟩

/-- A step keeps what is passed on. -/
theorem step (h : Hereditary Q P I) {s t : State ν} (hs : s.Holds Q P)
    (ht : step I s = .ok (.next t)) : t.Holds Q P := by
  have hstep := step_advances I s
  rw [ht] at hstep
  obtain ⟨hc, hframes⟩ := hs
  cases hstep with
  | int n env frames left => exact ⟨Value.every_int (h.int n), hframes⟩
  | name frames left hv => exact ⟨h.lookup hc.2 hv, hframes⟩
  | lam params body env frames left => exact ⟨.intro (h.closure.mpr hc.1) hc.2, hframes⟩
  | call f args env frames left =>
    obtain ⟨hf, hargs⟩ := h.call hc.1
    have hframe : (Frame.callee args env).Holds Q P := ⟨hargs, hc.2⟩
    exact ⟨⟨hf, hc.2⟩, List.forall_mem_cons.mpr ⟨hframe, hframes⟩⟩
  | callee v args env frames left =>
    obtain ⟨⟨hargs, henv⟩, hframes⟩ := List.forall_mem_cons.mp hframes
    exact holds_gather left ⟨hc, List.forall_mem_nil _, hargs, henv⟩ hframes
  | argument v f done todo env frames left =>
    obtain ⟨⟨hf, hdone, htodo, henv⟩, hframes⟩ := List.forall_mem_cons.mp hframes
    have hdone : ∀ w ∈ done ++ [v], w.Every Q :=
      List.forall_mem_append.mpr ⟨hdone, List.forall_mem_singleton.mpr hc⟩
    exact holds_gather left ⟨hf, hdone, htodo, henv⟩ hframes
  | leftover v args frames left =>
    obtain ⟨hargs, hframes⟩ := List.forall_mem_cons.mp hframes
    exact ⟨⟨hc, hargs⟩, hframes⟩
  | enter frames left hr => exact ⟨h.enter hc.1 hc.2 hr, hframes⟩
  | yield frames left hr => exact ⟨(h.yield hc.1 hc.2 hr).1, hframes⟩
  | leave frames left _ hr =>
    obtain ⟨hv, hrest⟩ := h.yield hc.1 hc.2 hr
    exact ⟨hv, List.forall_mem_cons.mpr ⟨hrest, hframes⟩⟩

end Hereditary

def Reaches (I : Interpreter ν) : State ν → State ν → Prop :=
  Relation.ReflTransGen fun s t => step I s = .ok (.next t)

theorem Hereditary.reaches (h : Hereditary Q P I) {s t : State ν} (hs : s.Holds Q P)
    (ht : Reaches I s t) : t.Holds Q P := by
  induction ht with
  | refl => exact hs
  | tail _ hstep ih => exact h.step ih hstep

/-- A run that fails does so in a state that it reaches. -/
theorem exists_error_of_run {s : State ν} {err : EvalError} (h : run I s = .error err) :
    ∃ t, Reaches I s t ∧ Advances I t (.error err) := by
  fun_induction run I s with
  | case1 s e he =>
    cases h
    exact ⟨s, .refl, he ▸ step_advances I s⟩
  | case2 s v left hd => cases h
  | case3 s u hu ih =>
    obtain ⟨t, ht, hfail⟩ := ih h
    exact ⟨t, .head hu ht, hfail⟩

/-- A run that gives a value ends in a state with nothing else pending. -/
theorem reaches_of_run {s : State ν} {v : Value ν} {left : Nat} (h : run I s = .ok (v, left)) :
    Reaches I s ⟨.ret v, [], left⟩ := by
  fun_induction run I s with
  | case1 s e he => cases h
  | case2 s w rest hd =>
    cases h
    have hdone := step_advances I s
    rw [hd] at hdone
    cases hdone
    exact .refl
  | case3 s u hu ih => exact .head hu (ih h)

end Machine

end Curried
