import Curried.Interpreter
import Curried.Proofs.Run

/-!
The machine and the plain recursive evaluator. A run of the machine from an expression or a call,
in any context of pending frames, is the direct evaluation of it and then the run from its value.
The bound on nested calls plays no part in the direct evaluation, since the call limit is reached
first.
-/

namespace Curried.Direct

variable {ν : Type}

abbrev Counted := StateT Nat (Except EvalError)

abbrev Caller (ν : Type) := Value ν → List (Value ν) → Counted (Value ν)

mutual
def eval (I : Interpreter ν) (call : Caller ν) (env : Env ν) : Expr → Counted (Value ν)
  | .int n => return .int n
  | .name x =>
    match (env.lookup x).or (I.globals.lookup x) with
    | some v => return v
    | none => throw (.unbound x)
  | .lam params body => return .closure params body env
  | .call f args => do
    let callee ← eval I call env f
    let values ← evalAll I call env args
    call callee values
def evalAll (I : Interpreter ν) (call : Caller ν) (env : Env ν) :
    List Expr → Counted (List (Value ν))
  | [] => return []
  | a :: as => do
    let v ← eval I call env a
    return v :: (← evalAll I call env as)
end

def count (I : Interpreter ν) : Counted Unit := do
  modify (· + 1)
  if I.limit < (← get) then throw (.callLimit I.limit)

def bindAll : List String → List (Value ν) → Env ν → Env ν
  | x :: xs, v :: vs, env => bindAll xs vs ((x, v) :: env)
  | _, _, env => env

/-- Makes one call, given what further calls do: it is counted and checked, then a function is
entered, or a native takes its arguments and passes those left over to its value. -/
def callOnce [Host ν] (I : Interpreter ν) (call : Caller ν) (callee : Value ν)
    (args : List (Value ν)) : Counted (Value ν) := do
  count I
  match callee with
  | .int _ => throw (.notCallable callee.render)
  | .closure params body env =>
    if params.length = args.length then eval I call (bindAll params args env) body
    else throw (.arity callee.render params.length args.length)
  | .native f received =>
    let all := received ++ args
    if args.isEmpty then throw (.arity callee.render (f.missing received.length) 0)
    else if all.length < f.arity then return .native f all
    else do
      let v ← f.run (all.take f.arity)
      if all.length = f.arity then return v
      else call v (all.drop f.arity)

def callWithin [Host ν] (I : Interpreter ν) : Nat → Caller ν
  | 0, _, _ => throw (.callLimit I.limit)
  | depth + 1, callee, args => callOnce I (callWithin I depth) callee args

/-- Makes a call. Each call inside another is counted, so none is deeper than the limit. -/
def call [Host ν] (I : Interpreter ν) : Caller ν := callWithin I I.limit

def evaluate [Host ν] (I : Interpreter ν) (e : Expr) : Except EvalError (Value ν) :=
  (eval I (call I) [] e).run' 0

variable {α β : Type}

theorem bind_apply (x : Counted α) (f : α → Counted β) (made : Nat) :
    (x >>= f) made = x made >>= fun p => f p.1 p.2 := rfl

theorem lift_apply (x : Except EvalError α) (made : Nat) :
    (liftM x : Counted α) made = x >>= fun a => .ok (a, made) := rfl

theorem count_apply (I : Interpreter ν) (made : Nat) :
    count I made = if I.limit < made + 1 then .error (.callLimit I.limit)
      else .ok ((), made + 1) := by
  have hc : count I made =
      (if I.limit < made + 1 then throw (.callLimit I.limit) else pure () : Counted Unit)
        (made + 1) := rfl
  rw [hc]
  split <;> rfl

theorem bindAll_eq (xs : List String) (vs : List (Value ν)) (env : Env ν) :
    bindAll xs vs env = (xs.zip vs).reverse ++ env := by
  induction xs generalizing vs env with
  | nil => simp [bindAll]
  | cons x xs ih =>
    cases vs with
    | nil => simp [bindAll]
    | cons v vs => simp [bindAll, ih]

section

variable (I : Interpreter ν) (call : Caller ν) (env : Env ν) (made : Nat)

theorem eval_call_apply (f : Expr) (args : List Expr) :
    eval I call env (.call f args) made = eval I call env f made >>= fun p =>
      evalAll I call env args p.2 >>= fun q => call p.1 q.1 q.2 := by
  rw [eval]
  rfl

theorem evalAll_nil_apply : evalAll I call env [] made = .ok ([], made) := by
  rw [evalAll]
  rfl

theorem evalAll_cons_apply (a : Expr) (as : List Expr) :
    evalAll I call env (a :: as) made = eval I call env a made >>= fun p =>
      evalAll I call env as p.2 >>= fun q => .ok (p.1 :: q.1, q.2) := by
  rw [evalAll]
  rfl

theorem eval_name_apply (x : String) :
    eval I call env (.name x) made =
      match (env.lookup x).or (I.globals.lookup x) with
      | some v => .ok (v, made)
      | none => .error (.unbound x) := by
  rw [eval]
  cases (env.lookup x).or (I.globals.lookup x) <;> rfl

def follow (call : Caller ν) (made : Nat) : Reaction ν → Except EvalError (Value ν × Nat)
  | .enter body env => eval I call env body made
  | .yield v [] => .ok (v, made)
  | .yield v rest => call v rest made

/-- A call is counted, and then goes on as the value that is called reacts. -/
theorem callOnce_apply [Host ν] (callee : Value ν) (args : List (Value ν)) :
    callOnce I call callee args made =
      if I.limit < made + 1 then .error (.callLimit I.limit)
      else callee.react args >>= follow I call (made + 1) := by
  unfold callOnce
  rw [bind_apply, count_apply]
  split
  · rfl
  · rw [ok_bind]
    cases callee with
    | int n => rfl
    | closure params body env =>
      simp only [Value.react, ← bindAll_eq]
      split <;> rfl
    | native f received =>
      simp only [Value.react]
      split
      · rfl
      split
      · rfl
      · next hge =>
        rw [bind_apply, lift_apply]
        cases f.run ((received ++ args).take f.arity) with
        | error err => rfl
        | ok v =>
          simp only [ok_bind]
          cases hd : (received ++ args).drop f.arity with
          | nil =>
            have hl : (received ++ args).length = f.arity := by
              have := List.drop_eq_nil_iff.mp hd
              omega
            rw [if_pos hl]
            rfl
          | cons a as =>
            have hl : (received ++ args).length ≠ f.arity := by
              intro hl
              rw [List.drop_eq_nil_of_le (Nat.le_of_eq hl)] at hd
              cases hd
            rw [if_neg hl]
            rfl

end

def Counting (call : Caller ν) : Prop :=
  ∀ {f args made v made'}, call f args made = .ok (v, made') → made ≤ made'

mutual
theorem le_of_eval {I : Interpreter ν} {call : Caller ν}
    (hc : Counting call) {env : Env ν} (e : Expr) {made made' : Nat} {v : Value ν}
    (h : eval I call env e made = .ok (v, made')) : made ≤ made' := by
  match e with
  | .int n =>
    rw [eval] at h
    cases h
    exact Nat.le_refl made
  | .name x =>
    rw [eval_name_apply] at h
    split at h
    · cases h
      exact Nat.le_refl made
    · cases h
  | .lam params body =>
    rw [eval] at h
    cases h
    exact Nat.le_refl made
  | .call f args =>
    rw [eval_call_apply] at h
    obtain ⟨⟨callee, made₁⟩, hf, h⟩ := except_bind_eq_ok_iff.mp h
    obtain ⟨⟨values, made₂⟩, hargs, h⟩ := except_bind_eq_ok_iff.mp h
    calc made ≤ made₁ := le_of_eval hc f hf
      _ ≤ made₂ := le_of_evalAll hc args hargs
      _ ≤ made' := hc h
theorem le_of_evalAll {I : Interpreter ν} {call : Caller ν}
    (hc : Counting call) {env : Env ν} (as : List Expr) {made made' : Nat} {vs : List (Value ν)}
    (h : evalAll I call env as made = .ok (vs, made')) : made ≤ made' := by
  match as with
  | [] =>
    rw [evalAll_nil_apply] at h
    cases h
    exact Nat.le_refl made
  | a :: as =>
    rw [evalAll_cons_apply] at h
    obtain ⟨⟨v, made₁⟩, ha, h⟩ := except_bind_eq_ok_iff.mp h
    obtain ⟨⟨ws, made₂⟩, has, h⟩ := except_bind_eq_ok_iff.mp h
    cases h
    exact Nat.le_trans (le_of_eval hc a ha) (le_of_evalAll hc as has)
end

mutual
/-- Evaluation makes no calls but those that come after the ones already made. -/
theorem eval_congr {I : Interpreter ν} {call call' : Caller ν}
    (hc : Counting call) {start : Nat}
    (h : ∀ made, start ≤ made → ∀ f args, call f args made = call' f args made)
    (env : Env ν) (e : Expr) {made : Nat} (hm : start ≤ made) :
    eval I call env e made = eval I call' env e made := by
  match e with
  | .int n => rw [eval, eval]
  | .name x => rw [eval_name_apply, eval_name_apply]
  | .lam params body => rw [eval, eval]
  | .call f args =>
    rw [eval_call_apply, eval_call_apply, ← eval_congr hc h env f hm]
    cases hf : eval I call env f made with
    | error err => rfl
    | ok p =>
      have hp : start ≤ p.2 := Nat.le_trans hm (le_of_eval hc f hf)
      rw [ok_bind, ok_bind, ← evalAll_congr hc h env args hp]
      cases hargs : evalAll I call env args p.2 with
      | error err => rfl
      | ok q =>
        have hq : start ≤ q.2 := Nat.le_trans hp (le_of_evalAll hc args hargs)
        exact h q.2 hq p.1 q.1
theorem evalAll_congr {I : Interpreter ν} {call call' : Caller ν}
    (hc : Counting call) {start : Nat}
    (h : ∀ made, start ≤ made → ∀ f args, call f args made = call' f args made)
    (env : Env ν) (as : List Expr) {made : Nat} (hm : start ≤ made) :
    evalAll I call env as made = evalAll I call' env as made := by
  match as with
  | [] => rw [evalAll_nil_apply, evalAll_nil_apply]
  | a :: as =>
    rw [evalAll_cons_apply, evalAll_cons_apply, ← eval_congr hc h env a hm]
    cases ha : eval I call env a made with
    | error err => rfl
    | ok p =>
      have hp : start ≤ p.2 := Nat.le_trans hm (le_of_eval hc a ha)
      rw [ok_bind, ok_bind, ← evalAll_congr hc h env as hp]
end

section

variable [Host ν] (I : Interpreter ν)

theorem counting_callOnce {call : Caller ν} (hc : Counting call) : Counting (callOnce I call) := by
  intro f args made v made' h
  rw [callOnce_apply] at h
  split at h
  · cases h
  · obtain ⟨reaction, -, h⟩ := except_bind_eq_ok_iff.mp h
    apply Nat.le_of_succ_le
    match reaction with
    | .enter body env => exact le_of_eval hc body h
    | .yield w [] =>
      cases h
      exact Nat.le_refl _
    | .yield w (a :: as) => exact hc h

theorem counting_callWithin (depth : Nat) : Counting (callWithin I depth) := by
  induction depth with
  | zero =>
    intro f args made v made' h
    cases h
  | succ depth ih => exact counting_callOnce I ih

/-- Two ways to make calls that agree on later calls agree on one more. -/
theorem callOnce_congr {call call' : Caller ν} (hc : Counting call) {start : Nat}
    (h : ∀ made, start + 1 ≤ made → ∀ f args, call f args made = call' f args made)
    (f : Value ν) (args : List (Value ν)) :
    callOnce I call f args start = callOnce I call' f args start := by
  rw [callOnce_apply, callOnce_apply]
  split
  · rfl
  · apply congrArg (f.react args >>= ·)
    funext reaction
    match reaction with
    | .enter body env => exact eval_congr hc h env body (Nat.le_refl _)
    | .yield w [] => rfl
    | .yield w (a :: as) => exact h _ (Nat.le_refl _) w (a :: as)

theorem callWithin_of_limit_le {made : Nat} (h : I.limit ≤ made) (depth : Nat) (f : Value ν)
    (args : List (Value ν)) : callWithin I depth f args made = .error (.callLimit I.limit) := by
  cases depth with
  | zero => rfl
  | succ depth => rw [callWithin, callOnce_apply, if_pos (by omega)]

/-- More depth than there are calls left makes no difference. -/
theorem callWithin_eq {depth depth' made : Nat} (h : I.limit ≤ made + depth)
    (h' : I.limit ≤ made + depth') (f : Value ν) (args : List (Value ν)) :
    callWithin I depth f args made = callWithin I depth' f args made := by
  induction depth generalizing depth' made f args with
  | zero =>
    have hm : I.limit ≤ made := h
    rw [callWithin_of_limit_le I hm, callWithin_of_limit_le I hm]
  | succ depth ih =>
    cases depth' with
    | zero =>
      have hm : I.limit ≤ made := h'
      rw [callWithin_of_limit_le I hm, callWithin_of_limit_le I hm]
    | succ depth' =>
      apply callOnce_congr I (counting_callWithin I depth)
      intro later hl g as
      exact ih (by omega) (by omega) g as

/-- A call satisfies the plain recursion, in which the calls inside it are like itself. -/
theorem call_eq_callOnce : call I = callOnce I (call I) := by
  funext f args made
  calc call I f args made = callWithin I (I.limit + 1) f args made :=
        callWithin_eq I (by omega) (by omega) f args
    _ = callOnce I (call I) f args made := rfl

def resume (frames : List (Machine.Frame ν)) (p : Value ν × Nat) :
    Except EvalError (Value ν × Nat) :=
  Machine.run I ⟨.ret p.1, frames, I.limit - p.2⟩

def Agrees (call : Caller ν) (start : Nat) : Prop :=
  ∀ made, start ≤ made → ∀ f args frames,
    Machine.run I ⟨.call f args, frames, I.limit - made⟩ = call f args made >>= resume I frames

mutual
/-- If calls agree, the machine evaluates an expression as the direct evaluator does. -/
theorem run_eval {call : Caller ν} (hc : Counting call)
    {start : Nat} (ha : Agrees I call start) (env : Env ν) (e : Expr)
    (frames : List (Machine.Frame ν)) {made : Nat} (hm : start ≤ made) :
    Machine.run I ⟨.eval e env, frames, I.limit - made⟩ =
      eval I call env e made >>= resume I frames := by
  match e with
  | .int n =>
    rw [eval]
    exact Machine.run_int I frames _ n env
  | .name x =>
    rw [eval_name_apply]
    split
    · next v hv => exact Machine.run_name_some I frames _ hv
    · next hn => exact Machine.run_name_none I frames _ hn
  | .lam params body =>
    rw [eval]
    exact Machine.run_lam I frames _ params body env
  | .call f args =>
    rw [Machine.run_callee, run_eval hc ha env f _ hm, eval_call_apply]
    cases hf : eval I call env f made with
    | error err => rfl
    | ok p =>
      have hp : start ≤ p.2 := Nat.le_trans hm (le_of_eval hc f hf)
      rw [ok_bind, ok_bind, resume, Machine.run_ret_callee,
        run_gather hc ha env p.1 [] args frames hp]
      cases evalAll I call env args p.2 <;> rfl
/-- The machine gathers the arguments of a call one by one, as the direct evaluator does. -/
theorem run_gather {call : Caller ν} (hc : Counting call)
    {start : Nat} (ha : Agrees I call start) (env : Env ν) (f : Value ν) (done : List (Value ν))
    (as : List Expr) (frames : List (Machine.Frame ν)) {made : Nat} (hm : start ≤ made) :
    Machine.run I (Machine.gather f done env frames (I.limit - made) as) =
      evalAll I call env as made >>= fun q => call f (done ++ q.1) q.2 >>= resume I frames := by
  match as with
  | [] =>
    rw [evalAll_nil_apply, ok_bind, List.append_nil]
    exact ha made hm f done frames
  | a :: as =>
    rw [Machine.gather, run_eval hc ha env a _ hm, evalAll_cons_apply]
    cases hv : eval I call env a made with
    | error err => rfl
    | ok p =>
      have hp : start ≤ p.2 := Nat.le_trans hm (le_of_eval hc a hv)
      rw [ok_bind, ok_bind, resume, Machine.run_ret_argument,
        run_gather hc ha env f (done ++ [p.1]) as frames hp]
      cases evalAll I call env as p.2 with
      | error err => rfl
      | ok q => simp only [ok_bind, List.append_assoc, List.singleton_append]
end

theorem counting_call : Counting (call I) := counting_callWithin I I.limit

/-- The machine makes calls as the direct evaluator does. -/
theorem agrees_call (start : Nat) : Agrees I (call I) start := by
  -- The induction is on the calls that are left, of which the call itself takes one.
  induction hn : I.limit - start using Nat.strongRecOn generalizing start with
  | ind n ih =>
    intro made hm f args frames
    rw [call_eq_callOnce, callOnce_apply]
    split
    · next hlt =>
      rw [show I.limit - made = 0 by omega]
      exact Machine.run_call_zero I frames f args
    · next hle =>
      have hlater : Agrees I (call I) (made + 1) := ih _ (by omega) (made + 1) rfl
      rw [show I.limit - made = I.limit - (made + 1) + 1 by omega]
      cases hr : f.react args with
      | error err => exact Machine.run_call_of_error I hr
      | ok reaction =>
        match reaction with
        | .enter body env =>
          rw [Machine.run_call_of_enter I hr]
          exact run_eval I (counting_call I) hlater env body frames (Nat.le_refl _)
        | .yield v [] => exact Machine.run_call_of_yield I hr
        | .yield v (a :: as) =>
          rw [Machine.run_call_of_leftover I (List.cons_ne_nil a as) hr]
          exact hlater _ (Nat.le_refl _) v (a :: as) frames

/-- The value of an expression is its direct value. -/
theorem evaluate_eq (e : Expr) : I.evaluate e = (eval I (call I) [] e 0).map Prod.fst := by
  have hrun := run_eval I (counting_call I) (agrees_call I 0) [] e [] (Nat.le_refl 0)
  rw [Nat.sub_zero] at hrun
  rw [Interpreter.evaluate, hrun]
  cases eval I (call I) [] e 0 with
  | error err => rfl
  | ok p =>
    rw [ok_bind, resume, Machine.run_ret_nil]
    rfl

end

end Curried.Direct

namespace Curried

/-- The machine evaluates every expression as the plain recursive evaluator does, with the same
value or the same error. In the latter a call is counted, checked and made, and the calls inside it
are calls like it. -/
theorem evaluate_eq_direct {ν : Type} [Host ν] (I : Interpreter ν) (e : Expr) :
    I.evaluate e = Direct.evaluate I e ∧ Direct.call I = Direct.callOnce I (Direct.call I) :=
  ⟨Direct.evaluate_eq I e, Direct.call_eq_callOnce I⟩

end Curried
