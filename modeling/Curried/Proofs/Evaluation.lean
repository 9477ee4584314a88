import Curried.Proofs.Counting
import Curried.Proofs.ReadBack
import Curried.Proofs.Reduction

/-!
Evaluation as reduction. Every state that the machine reaches from a closed curried expression
stands for a closed term. A call of the machine is one step of weak call-by-value reduction of this
term, and no other step of the machine changes it.
-/

namespace Curried

def Expr.closed? (scope : List String) (ρ : List (String × Nameless)) : Expr → Option Nameless
  | .name x => ((scope.idxOf? x).map .bound).or (ρ.lookup x)
  | .lam [x] body => (body.closed? (x :: scope) ρ).map .abs
  | .call callee [argument] => do
    return .app (← callee.closed? scope ρ) (← argument.closed? scope ρ)
  | _ => none

mutual
/-- The closed form of a closure: its function, with the closed forms of the values that it has
captured in place of their names. -/
def Value.closed? {ν : Type} : Value ν → Option Nameless
  | .closure params body env => do
    (Expr.lam params body).closed? [] (← Value.closedAll? env)
  | _ => none
def Value.closedAll? {ν : Type} : List (String × Value ν) → Option (List (String × Nameless))
  | [] => some []
  | binding :: env => do return (← Value.closedBinding? binding) :: (← Value.closedAll? env)
def Value.closedBinding? {ν : Type} : String × Value ν → Option (String × Nameless)
  | (x, v) => do return (x, ← v.closed?)
end

namespace Expr

variable {scope : List String} {ρ : List (String × Nameless)} {m : Nameless}

theorem closed?_name_eq_some_iff {x : String} :
    (name x).closed? scope ρ = some m ↔
      (∃ i, scope.idxOf? x = some i ∧ m = .bound i) ∨
        (scope.idxOf? x = none ∧ ρ.lookup x = some m) := by
  simp only [closed?]
  cases scope.idxOf? x <;> simp [eq_comm]

theorem closed?_lam_eq_some_iff {params : List String} {body : Expr} :
    (lam params body).closed? scope ρ = some m ↔
      ∃ x B, params = [x] ∧ body.closed? (x :: scope) ρ = some B ∧ m = .abs B := by
  match params with
  | [] => simp [closed?]
  | [x] => simp [closed?, Option.map_eq_some_iff, @eq_comm _ m]
  | x :: y :: params => simp [closed?]

theorem closed?_call_eq_some_iff {callee : Expr} {args : List Expr} :
    (call callee args).closed? scope ρ = some m ↔
      ∃ argument F A, args = [argument] ∧ callee.closed? scope ρ = some F ∧
        argument.closed? scope ρ = some A ∧ m = .app F A := by
  match args with
  | [] => simp [closed?]
  | [argument] =>
    rw [closed?, option_map₂_eq_some_iff]
    simp
  | a :: b :: args => simp [closed?]

end Expr

namespace Value

variable {ν : Type} {v : Value ν} {m : Nameless}

theorem closed?_eq_some_iff :
    v.closed? = some m ↔ ∃ x body env ρ B, v = .closure [x] body env ∧
      Value.closedAll? env = some ρ ∧ body.closed? [x] ρ = some B ∧ m = .abs B := by
  cases v with
  | int n => simp [closed?]
  | native f received => simp [closed?]
  | closure params body env =>
    simp only [closed?, Option.bind_eq_bind, Option.bind_eq_some_iff,
      Expr.closed?_lam_eq_some_iff]
    grind

theorem closedAll?_cons_eq_some_iff {x : String} {env : Env ν} {ρ : List (String × Nameless)} :
    Value.closedAll? ((x, v) :: env) = some ρ ↔
      ∃ V ρ', v.closed? = some V ∧ Value.closedAll? env = some ρ' ∧ ρ = (x, V) :: ρ' := by
  rw [closedAll?, option_map₂_eq_some_iff]
  simp only [closedBinding?, Option.bind_eq_bind, Option.bind_eq_some_iff, Option.pure_def,
    Option.some.injEq]
  grind

theorem isAbs_of_closed? (h : v.closed? = some m) : m.isAbs = true := by
  obtain ⟨x, body, env, ρ, B, _, _, _, rfl⟩ := closed?_eq_some_iff.mp h
  rfl

/-- A name that stands for a closed form is bound to a value of that form. -/
theorem exists_lookup_of_closedAll? {env : Env ν} {ρ : List (String × Nameless)}
    (h : Value.closedAll? env = some ρ) {x : String} (hx : ρ.lookup x = some m) :
    ∃ v, env.lookup x = some v ∧ v.closed? = some m := by
  induction env generalizing ρ with
  | nil =>
    cases h
    cases hx
  | cons binding env ih =>
    obtain ⟨y, v⟩ := binding
    obtain ⟨V, ρ', hv, hρ, rfl⟩ := closedAll?_cons_eq_some_iff.mp h
    rw [List.lookup_cons] at hx ⊢
    by_cases hxy : (x == y) = true
    · simp only [hxy] at hx ⊢
      cases hx
      exact ⟨v, rfl, hv⟩
    · simp only [hxy] at hx ⊢
      exact ih hρ hx

end Value

theorem Nameless.Below.mono {m : Nameless} {d e : Nat} (h : m.Below d) (hde : d ≤ e) :
    m.Below e := by
  induction m generalizing d e with
  | bound i => exact Nat.lt_of_lt_of_le h hde
  | free name => trivial
  | abs body ih => exact ih (d := d + 1) h (Nat.succ_le_succ hde)
  | app callee argument ihf iha => exact ⟨ihf h.1 hde, iha h.2 hde⟩

def AllClosed (ρ : List (String × Nameless)) : Prop := ∀ x m, ρ.lookup x = some m → m.Below 0

theorem allClosed_cons {ρ : List (String × Nameless)} (hρ : AllClosed ρ) {m : Nameless}
    (hm : m.Below 0) (x : String) : AllClosed ((x, m) :: ρ) := by
  intro y n hn
  rw [List.lookup_cons] at hn
  by_cases hxy : (y == x) = true
  · simp only [hxy] at hn
    cases hn
    exact hm
  · simp only [hxy] at hn
    exact hρ y n hn

theorem Expr.below_of_closed? {ρ : List (String × Nameless)} (hρ : AllClosed ρ)
    {scope : List String} {e : Expr} {m : Nameless} (h : e.closed? scope ρ = some m) :
    m.Below scope.length := by
  induction scope, e using Expr.closed?.induct generalizing m with
  | case1 scope x =>
    rcases closed?_name_eq_some_iff.mp h with ⟨i, hi, rfl⟩ | ⟨_, hm⟩
    · exact lt_length_of_idxOf? hi
    · exact (hρ x m hm).mono (Nat.zero_le _)
  | case2 scope x body ih =>
    obtain ⟨y, B, hy, hB, rfl⟩ := closed?_lam_eq_some_iff.mp h
    cases hy
    have hb : B.Below (x :: scope).length := ih hB
    exact hb
  | case3 scope callee argument ihf iha =>
    obtain ⟨a, F, A, ha, hF, hA, rfl⟩ := closed?_call_eq_some_iff.mp h
    cases ha
    exact ⟨ihf hF, iha hA⟩
  | case4 e scope hn hl hc =>
    simp [closed?] at h

mutual
theorem Value.below_of_closed? {ν : Type} (v : Value ν) {m : Nameless} (h : v.closed? = some m) :
    m.Below 0 := by
  match v with
  | .int n => cases h
  | .native f received => cases h
  | .closure params body env =>
    obtain ⟨ρ, hρ, hm⟩ := Option.bind_eq_some_iff.mp h
    exact Expr.below_of_closed? (Value.allClosed_of_closedAll? env hρ) hm
theorem Value.allClosed_of_closedAll? {ν : Type} (env : Env ν) {ρ : List (String × Nameless)}
    (h : Value.closedAll? env = some ρ) : AllClosed ρ := by
  match env with
  | [] =>
    cases h
    intro x m hm
    cases hm
  | (x, v) :: env =>
    obtain ⟨V, ρ', hV, hρ, rfl⟩ := Value.closedAll?_cons_eq_some_iff.mp h
    exact allClosed_cons (Value.allClosed_of_closedAll? env hρ) (Value.below_of_closed? v hV) x
end

/-- Binding the outermost parameter in the environment puts its value in for it. A parameter of the
same name further in hides both. -/
theorem Expr.closed?_bind {ρ : List (String × Nameless)} (hρ : AllClosed ρ) {x : String}
    {V : Nameless} {scope : List String} {e : Expr} {m : Nameless}
    (h : e.closed? (scope ++ [x]) ρ = some m) :
    e.closed? scope ((x, V) :: ρ) = some (m.inst scope.length V) := by
  induction scope, e using Expr.closed?.induct generalizing m with
  | case1 scope y =>
    rw [closed?_name_eq_some_iff, idxOf?_append] at h
    rw [closed?_name_eq_some_iff, List.lookup_cons]
    cases hy : scope.idxOf? y with
    | some j =>
      obtain rfl : m = .bound j := by simpa [hy] using h
      have hj : j ≠ scope.length := Nat.ne_of_lt (lt_length_of_idxOf? hy)
      simp [Nameless.inst, hj]
    | none =>
      by_cases hyx : y = x
      · subst hyx
        obtain rfl : m = .bound scope.length := by simpa [hy, List.idxOf?_cons] using h
        simp [Nameless.inst]
      · have hm : ρ.lookup y = some m := by simpa [hy, Ne.symm hyx, List.idxOf?_cons] using h
        have hi : m.inst scope.length V = m :=
          Nameless.inst_of_below ((hρ y m hm).mono (Nat.zero_le _)) V
        simp [beq_false_of_ne hyx, hm, hi]
  | case2 scope y body ih =>
    obtain ⟨z, B, hz, hB, rfl⟩ := closed?_lam_eq_some_iff.mp h
    cases hz
    exact closed?_lam_eq_some_iff.mpr ⟨y, _, rfl, ih hB, rfl⟩
  | case3 scope callee argument ihf iha =>
    obtain ⟨a, F, A, ha, hF, hA, rfl⟩ := closed?_call_eq_some_iff.mp h
    cases ha
    exact closed?_call_eq_some_iff.mpr ⟨argument, _, _, rfl, ihf hF, iha hA, rfl⟩
  | case4 e scope hn hl hc =>
    simp [closed?] at h

namespace Machine

variable {ν : Type}

def Control.closed? : Control ν → Option Nameless
  | eval e env => do e.closed? [] (← Value.closedAll? env)
  | ret v => v.closed?
  | call f [v] => do return .app (← f.closed?) (← v.closed?)
  | call .. => none

def Frame.closed? (hole : Nameless) : Frame ν → Option Nameless
  | callee [a] env => do return .app hole (← a.closed? [] (← Value.closedAll? env))
  | argument f [] [] _ => do return .app (← f.closed?) hole
  | _ => none

def framesClosed? (hole : Nameless) : List (Frame ν) → Option Nameless
  | [] => some hole
  | frame :: frames => do framesClosed? (← frame.closed? hole) frames

def State.closed? (s : State ν) : Option Nameless := do
  framesClosed? (← s.control.closed?) s.frames

theorem State.closed?_eq_some_iff {s : State ν} {M : Nameless} :
    s.closed? = some M ↔
      ∃ m, s.control.closed? = some m ∧ framesClosed? m s.frames = some M :=
  Option.bind_eq_some_iff

theorem Control.closed?_eval_eq_some_iff {e : Expr} {env : Env ν} {m : Nameless} :
    (eval e env).closed? = some m ↔
      ∃ ρ, Value.closedAll? env = some ρ ∧ e.closed? [] ρ = some m :=
  Option.bind_eq_some_iff

theorem Control.closed?_call_eq_some_iff {f : Value ν} {args : List (Value ν)} {m : Nameless} :
    (call f args).closed? = some m ↔
      ∃ v F V, args = [v] ∧ f.closed? = some F ∧ v.closed? = some V ∧ m = .app F V := by
  match args with
  | [] => simp [closed?]
  | [v] =>
    rw [closed?, option_map₂_eq_some_iff]
    simp
  | v :: w :: args => simp [closed?]

theorem Frame.closed?_callee_eq_some_iff {args : List Expr} {env : Env ν} {m M : Nameless} :
    (callee args env).closed? m = some M ↔
      ∃ a ρ A, args = [a] ∧ Value.closedAll? env = some ρ ∧ a.closed? [] ρ = some A ∧
        M = .app m A := by
  match args with
  | [] => simp [closed?]
  | [a] =>
    simp only [closed?, Option.bind_eq_bind, Option.bind_eq_some_iff, Option.pure_def,
      Option.some.injEq]
    grind
  | a :: b :: args => simp [closed?]

theorem Frame.closed?_argument_eq_some_iff {f : Value ν} {done : List (Value ν)}
    {todo : List Expr} {env : Env ν} {m M : Nameless} :
    (argument f done todo env).closed? m = some M ↔
      ∃ F, done = [] ∧ todo = [] ∧ f.closed? = some F ∧ M = .app F m := by
  match done, todo with
  | [], [] =>
    simp only [closed?, Option.bind_eq_bind, Option.bind_eq_some_iff, Option.pure_def,
      Option.some.injEq]
    grind
  | v :: done, todo => simp [closed?]
  | [], a :: todo => simp [closed?]

theorem framesClosed?_cons_eq_some_iff {frame : Frame ν} {frames : List (Frame ν)}
    {m M : Nameless} :
    framesClosed? m (frame :: frames) = some M ↔
      ∃ N, frame.closed? m = some N ∧ framesClosed? N frames = some M :=
  Option.bind_eq_some_iff

/-- Reduction goes on in the hole of a frame. -/
theorem Frame.exists_step {frame : Frame ν} {m m' M : Nameless} (h : frame.closed? m = some M)
    (hm : m.Step m') : ∃ M', frame.closed? m' = some M' ∧ M.Step M' := by
  cases frame with
  | callee args env =>
    obtain ⟨a, ρ, A, ha, hρ, hA, rfl⟩ := closed?_callee_eq_some_iff.mp h
    exact ⟨_, closed?_callee_eq_some_iff.mpr ⟨a, ρ, A, ha, hρ, hA, rfl⟩, .callee A hm⟩
  | argument f done todo env =>
    obtain ⟨F, hd, ht, hF, rfl⟩ := closed?_argument_eq_some_iff.mp h
    have hf : F.isAbs = true := Value.isAbs_of_closed? hF
    exact ⟨_, closed?_argument_eq_some_iff.mpr ⟨F, hd, ht, hF, rfl⟩, .argument hf hm⟩
  | leftover args => cases h

theorem exists_step_of_framesClosed? {frames : List (Frame ν)} {m m' M : Nameless}
    (h : framesClosed? m frames = some M) (hm : m.Step m') :
    ∃ M', framesClosed? m' frames = some M' ∧ M.Step M' := by
  induction frames generalizing m m' with
  | nil =>
    cases h
    exact ⟨m', rfl, hm⟩
  | cons frame frames ih =>
    obtain ⟨N, hN, h⟩ := framesClosed?_cons_eq_some_iff.mp h
    obtain ⟨N', hN', hs⟩ := Frame.exists_step hN hm
    obtain ⟨M', hM', hS⟩ := ih h hs
    exact ⟨M', framesClosed?_cons_eq_some_iff.mpr ⟨N', hN', hM'⟩, hS⟩

/-- What a step does in a state of closed form `m` with some calls left: it ends with a value of
that form, it changes the state but not the form, it makes a call and the form takes one step, or
there is no call left for the step that the form could take. -/
inductive Follows (I : Interpreter ν) (m : Nameless) (left : Nat) :
    Except EvalError (Progress ν) → Prop
  | finish {v : Value ν} : v.closed? = some m → Follows I m left (.ok (.done v left))
  | same {s : State ν} : s.closed? = some m → s.callsLeft = left → Follows I m left (.ok (.next s))
  | call {s : State ν} {m' : Nameless} : m.Step m' → s.closed? = some m' →
      s.callsLeft + 1 = left → Follows I m left (.ok (.next s))
  | stop {m' : Nameless} : m.Step m' → left = 0 → Follows I m left (.error (.callLimit I.limit))

/-- How a run ends from a state of closed form `m` with some calls left: with a value, whose form is
reached in as many steps as calls were made, or without calls, where the form could take one step
more. -/
inductive Ends (I : Interpreter ν) (m : Nameless) (left : Nat) :
    Except EvalError (Value ν × Nat) → Prop
  | value {v : Value ν} {w : Nameless} {n rest : Nat} : Iterated Nameless.Step n m w →
      v.closed? = some w → n + rest = left → Ends I m left (.ok (v, rest))
  | limit {w w' : Nameless} : Iterated Nameless.Step left m w → w.Step w' →
      Ends I m left (.error (.callLimit I.limit))

theorem Ends.of_step {I : Interpreter ν} {m m' : Nameless} {left : Nat}
    {result : Except EvalError (Value ν × Nat)} (h : m.Step m') (hr : Ends I m' left result) :
    Ends I m (left + 1) result := by
  cases hr with
  | value hn hv hl => exact .value (.succ h hn) hv (by omega)
  | limit hn hs => exact .limit (.succ h hn) hs

variable [Host ν]

/-- Calling a closure binds its parameter, which is the reduction of its closed form. -/
theorem react_of_closed? {f v : Value ν} {F V : Nameless} (hF : f.closed? = some F)
    (hV : v.closed? = some V) :
    ∃ body env m, f.react [v] = .ok (.enter body env) ∧
      (Control.eval body env).closed? = some m ∧ (Nameless.app F V).Step m := by
  obtain ⟨x, body, env, ρ, B, rfl, hρ, hB, rfl⟩ := Value.closed?_eq_some_iff.mp hF
  have hbind : body.closed? [] ((x, V) :: ρ) = some (B.inst 0 V) :=
    Expr.closed?_bind (Value.allClosed_of_closedAll? env hρ) hB
  have henv : Value.closedAll? ((x, v) :: env) = some ((x, V) :: ρ) :=
    Value.closedAll?_cons_eq_some_iff.mpr ⟨V, ρ, hV, hρ, rfl⟩
  exact ⟨body, (x, v) :: env, B.inst 0 V, rfl,
    Control.closed?_eval_eq_some_iff.mpr ⟨_, henv, hbind⟩, .beta B (Value.isAbs_of_closed? hV)⟩

theorem step_follows (I : Interpreter ν) {s : State ν} {m : Nameless} (h : s.closed? = some m) :
    Follows I m s.callsLeft (step I s) := by
  rcases s with ⟨control, frames, left⟩
  obtain ⟨c, hc, hm⟩ := State.closed?_eq_some_iff.mp h
  -- Only the last case is a call. The others move the control inside the same form.
  match control, frames with
  | .eval (.int n) env, frames =>
    obtain ⟨ρ, _, he⟩ := Control.closed?_eval_eq_some_iff.mp hc
    cases he
  | .eval (.name x) env, frames =>
    obtain ⟨ρ, hρ, he⟩ := Control.closed?_eval_eq_some_iff.mp hc
    obtain ⟨v, hv, hV⟩ := Value.exists_lookup_of_closedAll? hρ he
    simp only [step, hv, Option.some_or]
    exact .same (State.closed?_eq_some_iff.mpr ⟨c, hV, hm⟩) rfl
  | .eval (.lam params body) env, frames => exact .same h rfl
  | .eval (.call f args) env, frames =>
    obtain ⟨ρ, hρ, he⟩ := Control.closed?_eval_eq_some_iff.mp hc
    obtain ⟨a, F, A, ha, hF, hA, rfl⟩ := Expr.closed?_call_eq_some_iff.mp he
    have hf : (Frame.callee args env).closed? F = some (.app F A) :=
      Frame.closed?_callee_eq_some_iff.mpr ⟨a, ρ, A, ha, hρ, hA, rfl⟩
    refine .same (State.closed?_eq_some_iff.mpr ⟨F, ?_, ?_⟩) rfl
    · exact Control.closed?_eval_eq_some_iff.mpr ⟨ρ, hρ, hF⟩
    · exact framesClosed?_cons_eq_some_iff.mpr ⟨_, hf, hm⟩
  | .ret v, [] =>
    cases hm
    exact .finish hc
  | .ret v, .callee args env :: frames =>
    obtain ⟨N, hN, hm⟩ := framesClosed?_cons_eq_some_iff.mp hm
    obtain ⟨a, ρ, A, rfl, hρ, hA, rfl⟩ := Frame.closed?_callee_eq_some_iff.mp hN
    have hf : (Frame.argument v [] [] env).closed? A = some (.app c A) :=
      Frame.closed?_argument_eq_some_iff.mpr ⟨c, rfl, rfl, hc, rfl⟩
    refine .same (State.closed?_eq_some_iff.mpr ⟨A, ?_, ?_⟩) rfl
    · exact Control.closed?_eval_eq_some_iff.mpr ⟨ρ, hρ, hA⟩
    · exact framesClosed?_cons_eq_some_iff.mpr ⟨_, hf, hm⟩
  | .ret v, .argument f done todo env :: frames =>
    obtain ⟨N, hN, hm⟩ := framesClosed?_cons_eq_some_iff.mp hm
    obtain ⟨F, rfl, rfl, hF, rfl⟩ := Frame.closed?_argument_eq_some_iff.mp hN
    refine .same (State.closed?_eq_some_iff.mpr ⟨.app F c, ?_, hm⟩) rfl
    exact Control.closed?_call_eq_some_iff.mpr ⟨v, F, c, rfl, hF, hc, rfl⟩
  | .ret v, .leftover args :: frames =>
    obtain ⟨N, hN, _⟩ := framesClosed?_cons_eq_some_iff.mp hm
    cases hN
  | .call f args, frames =>
    obtain ⟨v, F, V, rfl, hF, hV, rfl⟩ := Control.closed?_call_eq_some_iff.mp hc
    obtain ⟨body, env, n, hr, hn, hs⟩ := react_of_closed? hF hV
    obtain ⟨m', hm', hS⟩ := exists_step_of_framesClosed? hm hs
    -- The form takes its step in any case. It is the machine that may have no call for it.
    cases left with
    | zero => exact .stop hS rfl
    | succ left =>
      simp only [step, hr]
      exact .call hS (State.closed?_eq_some_iff.mpr ⟨n, hn, hm'⟩) rfl

theorem run_ends (I : Interpreter ν) {s : State ν} {m : Nameless} (h : s.closed? = some m) :
    Ends I m s.callsLeft (run I s) := by
  fun_induction run I s generalizing m with
  | case1 s e he =>
    have hf := step_follows I h
    rw [he] at hf
    cases hf with
    | stop hs hl => exact .limit (hl ▸ .zero m) hs
  | case2 s v left hd =>
    have hf := step_follows I h
    rw [hd] at hf
    cases hf with
    | finish hv => exact .value (.zero m) hv (Nat.zero_add _)
  | case3 s t ht ih =>
    have hf := step_follows I h
    rw [ht] at hf
    cases hf with
    | same hm hl => exact hl ▸ ih hm
    | call hs hm hl => exact hl ▸ (ih hm).of_step hs

end Machine

/-- A term without free names is spelled by an expression of its own form. -/
theorem Term.closed?_spell {bound : List Ident} {t : Term} {m : Nameless}
    (h : t.nameless? bound = some m) (hf : t.freeOccurrences = []) :
    t.spell.closed? (bound.map Ident.name) [] = some m := by
  induction t generalizing bound m with
  | var x =>
    obtain ⟨i, hi, rfl⟩ := Option.map_eq_some_iff.mp h
    simp [spell, Expr.closed?, idxOf?_map_name, hi]
  | free name => cases hf
  | abs x body ih =>
    obtain ⟨B, hB, rfl⟩ := nameless?_abs_eq_some_iff.mp h
    exact Expr.closed?_lam_eq_some_iff.mpr ⟨x.name, B, rfl, ih hB hf, rfl⟩
  | app callee argument ihf iha =>
    obtain ⟨F, A, hF, hA, rfl⟩ := nameless?_app_eq_some_iff.mp h
    obtain ⟨hf, ha⟩ := List.append_eq_nil_iff.mp hf
    exact Expr.closed?_call_eq_some_iff.mpr
      ⟨argument.spell, F, A, rfl, ihf hF hf, iha hA ha, rfl⟩

/-- Evaluation of a closed term ends with the abstraction that the term reduces to, or after as many
steps as there are calls with a term that could take one more. -/
theorem Term.evaluate_spell {ν : Type} [Host ν] (I : Interpreter ν) {t : Term} {m : Nameless}
    (h : t.nameless? [] = some m) (hf : t.freeOccurrences = []) :
    (∃ v n w k, I.evaluate t.spell = .ok v ∧ n ≤ I.limit ∧ Iterated Step n t w ∧
      v.closed? = some k ∧ w.nameless? [] = some k) ∨
    (I.evaluate t.spell = .error (.callLimit I.limit) ∧
      ∃ w w', Iterated Step I.limit t w ∧ w.Step w') := by
  have hs : (Machine.State.mk (.eval t.spell []) [] I.limit : Machine.State ν).closed? = some m :=
    Machine.State.closed?_eq_some_iff.mpr
      ⟨m, Machine.Control.closed?_eval_eq_some_iff.mpr ⟨[], rfl, closed?_spell h hf⟩, rfl⟩
  have hr := Machine.run_ends I hs
  rw [Interpreter.evaluate]
  generalize Machine.run I ⟨.eval t.spell [], [], I.limit⟩ = result at hr ⊢
  cases hr with
  | value hn hv hl =>
    obtain ⟨w, hw, hk⟩ := exists_iterated hn h
    exact .inl ⟨_, _, w, _, rfl, by simp only at hl; omega, hw, hv, hk⟩
  | limit hn hs =>
    obtain ⟨w, hw, hk⟩ := exists_iterated hn h
    obtain ⟨w', hw', _⟩ := exists_step hs hk
    exact .inr ⟨rfl, w, w', hw, hw'⟩

/-- The same under a word as the limit. Nothing exceeds the greatest limit, so under it evaluation
has no end where the term can always take one more step. -/
theorem Term.evaluate_spell_word {ν : Type} [Host ν] (R : Evaluator ν) {t : Term} {m : Nameless}
    (h : t.nameless? [] = some m) (hf : t.freeOccurrences = []) :
    (∃ v n w k, R.evaluate t.spell = some (.ok v) ∧
      (n ≤ R.limit.toNat ∨ R.limit.toNat + 1 = UInt64.size) ∧ Iterated Step n t w ∧
      v.closed? = some k ∧ w.nameless? [] = some k) ∨
    ((R.evaluate t.spell = if R.limit.toNat + 1 = UInt64.size then none
        else some (.error (.callLimit R.limit.toNat))) ∧
      ∀ n, n ≤ R.limit.toNat ∨ R.limit.toNat + 1 = UInt64.size →
        ∃ l ≥ n, ∃ w w', Iterated Step l t w ∧ w.Step w') := by
  by_cases htop : R.limit.toNat + 1 = UInt64.size
  · by_cases hc : ∃ k o, Machine.ComesTo R.globals (.eval t.spell []) [] k o
    · obtain ⟨k, o, hk⟩ := hc
      have heval := Evaluator.evaluate_of_comesTo hk (.inr htop)
      have hcases : ∀ limit ≥ k, (∃ v n w m, o = .ok v ∧ Iterated Step n t w ∧
          v.closed? = some m ∧ w.nameless? [] = some m) ∨ o = .error (.callLimit limit) := by
        intro limit hl
        have ho := Interpreter.evaluate_of_comesTo hk hl
        rcases Term.evaluate_spell ⟨R.globals, limit⟩ h hf with
          ⟨v, n, w, m, hv, -, hw, hm, hwm⟩ | ⟨herr, -⟩
        · exact .inl ⟨v, n, w, m, ho.symm.trans hv, hw, hm, hwm⟩
        · exact .inr (ho.symm.trans herr)
      rcases hcases k (Nat.le_refl k) with ⟨v, n, w, m, rfl, hw, hm, hwm⟩ | rfl
      · exact .inl ⟨v, n, w, m, heval, .inr htop, hw, hm, hwm⟩
      -- An error about the limit `k` would be one about the next limit too.
      · rcases hcases (k + 1) (Nat.le_succ k) with ⟨v, _, _, _, hv, -⟩ | hlimit
        · cases hv
        · cases hlimit
    · refine .inr ⟨by rw [Evaluator.evaluate_eq_none htop hc, if_pos htop], fun n _ => ?_⟩
      rcases Term.evaluate_spell ⟨R.globals, n⟩ h hf with ⟨v, _, _, _, hv, -⟩ | ⟨-, hsteps⟩
      · obtain ⟨k, hk⟩ := exists_comesTo_of_evaluate hv
        exact absurd ⟨k, _, hk⟩ hc
      · exact ⟨n, Nat.le_refl n, hsteps⟩
  · have hR : R.limit.toNat + 1 < UInt64.size := by have := R.limit_lt; omega
    rw [Evaluator.evaluate_eq hR, if_neg htop]
    rcases Term.evaluate_spell R.interpreter h hf with
      ⟨v, n, w, k, hv, hn, hw, hk, hwk⟩ | ⟨herr, hsteps⟩
    · exact .inl ⟨v, n, w, k, congrArg some hv, .inl hn, hw, hk, hwk⟩
    · refine .inr ⟨congrArg some herr, fun n hn => ?_⟩
      exact ⟨_, hn.resolve_right htop, hsteps⟩

/-- A closed canonical term evaluates to a closure exactly when it reduces to an abstraction in at
most as many steps as the limit allows calls. The closed form of the closure is then the nameless
form of the abstraction. Otherwise evaluation stops at the limit. The greatest limit allows any
number of calls, and there evaluation does not stop. No two parameters may get the same one of the
2^64 identifiers. -/
theorem evaluate_closure_iff_reduces {ν : Type} [Host ν] (R : Evaluator ν) {e : Expr}
    {c : Canonical} (hsize : e.paramCount ≤ UInt64.size)
    (h : Canonical.ofExpr .reject e = .ok c) :
    ∃ tree, c.term.toExpr = .ok tree ∧
      ((∃ params body env, R.evaluate tree = some (.ok (.closure params body env))) ↔
        ∃ n w, (n ≤ R.limit.toNat ∨ R.limit.toNat + 1 = UInt64.size) ∧
          Iterated Term.Step n c.term w ∧ w.isAbs = true) ∧
      (∀ params body env n w, R.evaluate tree = some (.ok (.closure params body env)) →
        Iterated Term.Step n c.term w → w.isAbs = true →
          ∃ m, (Value.closure params body env).closed? = some m ∧ w.nameless? [] = some m) ∧
      ((¬ ∃ params body env, R.evaluate tree = some (.ok (.closure params body env))) →
        R.evaluate tree = if R.limit.toNat + 1 = UInt64.size then none
          else some (.error (.callLimit R.limit.toNat))) := by
  have hfree : c.term.freeOccurrences = [] := by
    apply List.eq_nil_iff_forall_not_mem.mpr
    intro x hx
    cases (Canonical.ofName?_of_mem_term h hx).1
  have hread : c.term.toExpr = .ok c.term.spell :=
    Canonical.toExpr_term hsize h (by simp [hfree])
  obtain ⟨m, -, -, hm⟩ := Canonical.nameless?_term hsize h
  refine ⟨c.term.spell, hread, ?_⟩
  rcases Term.evaluate_spell_word R hm hfree with
    ⟨v, n, w, k, hv, hn, hw, hk, hwk⟩ | ⟨herr, hsteps⟩
  · obtain ⟨x, body, env, ρ, B, rfl, _, _, rfl⟩ := Value.closed?_eq_some_iff.mp hk
    have habs : w.isAbs = true := Term.isAbs_of_nameless? hwk
    have hclosure : ∃ params body env,
        R.evaluate c.term.spell = some (.ok (.closure params body env)) := ⟨_, _, _, hv⟩
    refine ⟨⟨fun _ => ⟨n, w, hn, hw, habs⟩, fun _ => hclosure⟩, ?_, fun hno => (hno hclosure).elim⟩
    intro params body' env' n' w' hv' hw' habs'
    rw [hv] at hv'
    cases hv'
    obtain rfl : w = w' := Term.eq_of_iterated hw hw' habs habs'
    exact ⟨_, hk, hwk⟩
  · have hnone : ¬ ∃ params body env,
        R.evaluate c.term.spell = some (.ok (.closure params body env)) := by
      rintro ⟨params, body, env, hv⟩
      rw [herr] at hv
      split at hv <;> cases hv
    refine ⟨⟨fun hc => (hnone hc).elim, ?_⟩, ?_, fun _ => herr⟩
    · rintro ⟨n, u, hn, hu, habs⟩
      -- The longer run would have ended at this abstraction, but it can go on.
      obtain ⟨l, hl, w, w', hw, hw'⟩ := hsteps n hn
      obtain ⟨-, rfl⟩ := Term.eq_of_iterated_of_le hu hw habs hl
      exact (Term.not_step_of_isAbs habs hw').elim
    · intro params body env n u hv
      exact (hnone ⟨_, _, _, hv⟩).elim

/-- A function that gives constant functions is called with itself, so that one binder is entered
twice, and the second closure captures the first. -/
theorem evaluate_constant_of_itself :
    Canonical.ofExpr .reject (.call (.lam ["f"] (.call (.name "f") [.name "f"]))
        [.lam ["x", "y"] (.name "x")]) =
      .ok ⟨.app (.abs ⟨0⟩ (.app (.var ⟨0⟩) (.var ⟨0⟩))) (.abs ⟨1⟩ (.abs ⟨2⟩ (.var ⟨1⟩))), 3⟩ ∧
    ∃ tree params body env,
      (Term.app (.abs ⟨0⟩ (.app (.var ⟨0⟩) (.var ⟨0⟩)))
        (.abs ⟨1⟩ (.abs ⟨2⟩ (.var ⟨1⟩)))).toExpr = .ok tree ∧
      (⟨Interpreter.builtins, 2⟩ : Evaluator Stock).evaluate tree =
        some (.ok (.closure params body env)) ∧
      (Value.closure params body env).closed? = some (.abs (.abs (.abs (.bound 1)))) := by
  have h : Canonical.ofExpr .reject (.call (.lam ["f"] (.call (.name "f") [.name "f"]))
      [.lam ["x", "y"] (.name "x")]) =
      .ok ⟨.app (.abs ⟨0⟩ (.app (.var ⟨0⟩) (.var ⟨0⟩))) (.abs ⟨1⟩ (.abs ⟨2⟩ (.var ⟨1⟩))), 3⟩ := by
    decide +kernel
  obtain ⟨tree, ht, hiff, hback, -⟩ :=
    evaluate_closure_iff_reduces (⟨Interpreter.builtins, 2⟩ : Evaluator Stock) (by decide) h
  have hw : Iterated Term.Step 2
      (.app (.abs ⟨0⟩ (.app (.var ⟨0⟩) (.var ⟨0⟩))) (.abs ⟨1⟩ (.abs ⟨2⟩ (.var ⟨1⟩))))
      (.abs ⟨2⟩ (.abs ⟨1⟩ (.abs ⟨2⟩ (.var ⟨1⟩)))) :=
    .succ (.beta _ _ rfl) (.succ (.beta _ _ rfl) (.zero _))
  obtain ⟨params, body, env, hv⟩ := hiff.mpr ⟨2, _, .inl (by decide), hw, rfl⟩
  obtain ⟨m, hm, hwm⟩ := hback params body env 2 _ hv hw rfl
  have hform : m = .abs (.abs (.abs (.bound 1))) := by
    cases hwm
    rfl
  exact ⟨h, tree, params, body, env, ht, hv, hform ▸ hm⟩

/-- Under the greatest limit a term that only reduces to itself has neither a closure nor an error
about the limit. -/
theorem evaluate_self_call_eq_none :
    let c : Canonical := ⟨.app (.abs ⟨0⟩ (.app (.var ⟨0⟩) (.var ⟨0⟩)))
      (.abs ⟨1⟩ (.app (.var ⟨1⟩) (.var ⟨1⟩))), 2⟩
    let tree : Expr := .call (.selfCall "x0") [.selfCall "x1"]
    Canonical.ofExpr .reject (.call (.selfCall "x") [.selfCall "x"]) = .ok c ∧
      c.term.toExpr = .ok tree ∧
      (⟨[], 18446744073709551615⟩ : Evaluator Stock).evaluate tree = none := by
  refine ⟨by decide +kernel, by decide +kernel, Evaluator.evaluate_eq_none rfl ?_⟩
  rintro ⟨k, o, h⟩
  exact Machine.not_comesTo_eval_selfCall "x0" "x1" h

end Curried
