import Curried.Proofs.Invariant
import Curried.Value

namespace Curried

namespace Expr

mutual
/-- A name is free under parameters when it is free and not one of them. -/
theorem mem_freeOccurrences_iff {x : String} {bound : List String} (e : Expr) :
    x ∈ e.freeOccurrences bound ↔ x ∈ e.freeOccurrences [] ∧ x ∉ bound := by
  match e with
  | .name y => by_cases hy : y ∈ bound <;> grind [freeOccurrences]
  | .int n => simp [freeOccurrences]
  | .lam params body =>
    simp only [freeOccurrences, List.append_nil]
    rw [mem_freeOccurrences_iff body, @mem_freeOccurrences_iff x params body]
    simp only [List.mem_append, not_or, and_assoc]
  | .call f args =>
    simp only [freeOccurrences, List.mem_append]
    rw [mem_freeOccurrences_iff f, mem_freeOccurrencesAll_iff args, ← or_and_right]
theorem mem_freeOccurrencesAll_iff {x : String} {bound : List String} (as : List Expr) :
    x ∈ freeOccurrencesAll bound as ↔ x ∈ freeOccurrencesAll [] as ∧ x ∉ bound := by
  match as with
  | [] => simp [freeOccurrencesAll]
  | a :: as =>
    simp only [freeOccurrencesAll, List.mem_append]
    rw [mem_freeOccurrences_iff a, mem_freeOccurrencesAll_iff as, ← or_and_right]
end

variable {x : String}

theorem mem_freeNames_name (y : String) : x ∈ (name y).freeNames ↔ x = y := by
  simp [freeNames, freeOccurrences]

theorem mem_freeNames_lam (params : List String) (body : Expr) :
    x ∈ (lam params body).freeNames ↔ x ∈ body.freeNames ∧ x ∉ params := by
  simp only [freeNames, List.mem_eraseDups, freeOccurrences, List.append_nil]
  exact mem_freeOccurrences_iff body

theorem mem_freeNames_call (f : Expr) (args : List Expr) :
    x ∈ (call f args).freeNames ↔ x ∈ f.freeNames ∨ ∃ a ∈ args, x ∈ a.freeNames := by
  simp only [freeNames, List.mem_eraseDups, freeOccurrences, freeOccurrencesAll_eq_flatMap,
    List.mem_append, List.mem_flatMap]

end Expr

variable {ν : Type}

theorem not_mem_of_lookup_eq_none {env : Env ν} {x : String} (h : env.lookup x = none) :
    x ∉ env.map Prod.fst := by
  intro hx
  obtain ⟨⟨y, v⟩, hb, rfl⟩ := List.mem_map.mp hx
  have hne := List.lookup_eq_none_iff.mp h _ hb
  simp at hne

/-- A function uses no names but its parameters, those it has captured and those in `K`. A native is
one of `S`. -/
def Value.Uses (S : ν → Prop) (K : String → Prop) : Value ν → Prop
  | int _ => True
  | closure params body env => ∀ x ∈ body.freeNames, x ∈ params ∨ x ∈ env.map Prod.fst ∨ K x
  | native f _ => f.Among S

namespace Machine

def UsesUnder (K : String → Prop) (names : List String) (e : Expr) : Prop :=
  ∀ x ∈ e.freeNames, x ∈ names ∨ K x

variable {S : ν → Prop} {K : String → Prop}

theorem uses_closure_iff {params : List String} {body : Expr} {env : Env ν} :
    (Value.closure params body env).Uses S K ↔
      UsesUnder K (env.map Prod.fst) (.lam params body) := by
  simp only [Value.Uses, UsesUnder, Expr.mem_freeNames_lam]
  constructor
  · rintro h x ⟨hx, hp⟩
    exact (h x hx).resolve_left hp
  · intro h x hx
    by_cases hp : x ∈ params
    · exact .inl hp
    · exact .inr (h x ⟨hx, hp⟩)

/-- What code uses is passed on by every step. -/
theorem hereditary_uses [Host ν] {I : Interpreter ν} (hS : Host.Keeps S (Value.Uses S K))
    (hG : ∀ x v, I.globals.lookup x = some v → v.Every (Value.Uses S K)) :
    Hereditary (Value.Uses S K) (UsesUnder K) I where
  int n := trivial
  closure := uses_closure_iff
  body {names params body} h x hx := by
    by_cases hp : x ∈ params
    · exact .inl (List.mem_append_left _ (List.mem_reverse.mpr hp))
    · have hlam := h x ((Expr.mem_freeNames_lam params body).mpr ⟨hx, hp⟩)
      exact hlam.imp_left (List.mem_append_right _)
  call {names f args} h := by
    constructor
    · intro x hx
      exact h x ((Expr.mem_freeNames_call f args).mpr (.inl hx))
    · intro a ha x hx
      exact h x ((Expr.mem_freeNames_call f args).mpr (.inr ⟨a, ha, hx⟩))
  wait hf _ := hf
  run hf _ hargs hv := hS.run (fun _ => trivial) hf hargs hv
  globals hv := hG _ _ hv

end Machine

abbrev Value.ClosedOver (S : ν → Prop) (G : Env ν) : Value ν → Prop :=
  Value.Every (Uses S (· ∈ G.map Prod.fst))

inductive Value.BuiltFrom (S : ν → Prop) (args : List (Value ν)) : Value ν → Prop
  | int (n : Int64) : BuiltFrom S args (.int n)
  | arg {v : Value ν} : v ∈ args → BuiltFrom S args v
  | native {f : Native ν} {received : List (Value ν)} : f.Among S →
      (∀ v ∈ received, BuiltFrom S args v) → BuiltFrom S args (.native f received)

/-- The functions of the host in `S` make no functions of the notation: what they give is built from
their arguments. -/
def Host.Builds [Host ν] (S : ν → Prop) : Prop :=
  ∀ f, S f → ∀ args v, Host.run f args = .ok v → v.BuiltFrom S args

theorem Value.BuiltFrom.closedOver {S : ν → Prop} {G : Env ν} {args : List (Value ν)} {v : Value ν}
    (h : v.BuiltFrom S args) (hargs : ∀ a ∈ args, a.ClosedOver S G) : v.ClosedOver S G := by
  induction h with
  | int n => exact every_int trivial
  | arg hv => exact hargs _ hv
  | native hf _ ih => exact .intro hf ih

namespace Machine

variable {S : ν → Prop}

/-- Being closed over the globals is passed on by every step. -/
theorem hereditary_closedOver [Host ν] {I : Interpreter ν} (hS : Host.Builds S)
    (hG : ∀ x v, I.globals.lookup x = some v → v.ClosedOver S I.globals) :
    Hereditary (Value.Uses S (· ∈ I.globals.map Prod.fst))
      (UsesUnder (· ∈ I.globals.map Prod.fst)) I :=
  hereditary_uses (fun f hf args v hargs hv => (hS f hf args v hv).closedOver hargs) hG

/-- In a state where all names are resolved, a lookup does not fail. A name that is reported
nevertheless is reported by a function of the host. -/
theorem host_of_unbound [Host ν] {I : Interpreter ν} {s : State ν} {x : String}
    (hs : s.Holds (Value.Uses S (· ∈ I.globals.map Prod.fst))
      (UsesUnder (· ∈ I.globals.map Prod.fst)))
    (h : Advances I s (.error (.unbound x))) :
    ∃ f args, S f ∧ Host.run f args = .error (.unbound x) := by
  cases h with
  | unbound frames left hx =>
    exfalso
    obtain ⟨hlocal, hglobal⟩ := Option.or_eq_none_iff.mp hx
    rcases hs.control.1 x ((Expr.mem_freeNames_name x).mpr rfl) with hbound | hbound
    · exact not_mem_of_lookup_eq_none hlocal hbound
    · exact not_mem_of_lookup_eq_none hglobal hbound
  | fail frames left hr =>
    cases hr with
    | @fail f received args taken rest _ _ _ hlen hrun =>
      cases f with
      | builtin f =>
        obtain ⟨v, hv⟩ := Builtin.mismatch_of_run hlen hrun
        cases hv
      | host f => exact ⟨f, taken, hs.control.1.self, hrun⟩

end Machine

/-- Evaluation never comes to a name that is bound nowhere, whatever the limit, if the globals are
closed over themselves, the free names of the expression are globals, and the functions of the host
only give values built from integers, natives and their arguments. An error that says so can only
come from a function of the host that reports it itself. -/
theorem evaluate_resolves_names [Host ν] {S : ν → Prop} (hS : Host.Builds S) {I : Interpreter ν}
    (hG : ∀ x v, I.globals.lookup x = some v → v.ClosedOver S I.globals) {e : Expr}
    (he : ∀ x ∈ e.freeNames, x ∈ I.globals.map Prod.fst) :
    (∀ x, I.evaluate e = .error (.unbound x) →
      ∃ f args, S f ∧ Host.run f args = .error (.unbound x)) ∧
    ((∀ f, S f → ∀ args x, Host.run f args ≠ .error (.unbound x)) →
      ∀ x, I.evaluate e ≠ .error (.unbound x)) := by
  have hstart : (Machine.State.mk (.eval e []) [] I.limit).Holds
      (Value.Uses S (· ∈ I.globals.map Prod.fst))
      (Machine.UsesUnder (· ∈ I.globals.map Prod.fst)) :=
    ⟨⟨fun x hx => .inr (he x hx), List.forall_mem_nil _⟩, List.forall_mem_nil _⟩
  have hreport : ∀ x, I.evaluate e = .error (.unbound x) →
      ∃ f args, S f ∧ Host.run f args = .error (.unbound x) := by
    intro x hx
    obtain ⟨t, ht, hfail⟩ := Machine.exists_error_of_run (except_map_eq_error_iff.mp hx)
    have hheld := (Machine.hereditary_closedOver hS hG).reaches hstart ht
    exact Machine.host_of_unbound hheld hfail
  refine ⟨hreport, ?_⟩
  intro hhost x hx
  obtain ⟨f, args, hf, hrun⟩ := hreport x hx
  exact hhost f hf args x hrun

/-- The choice between two values reads an integer and gives one of the two, or it fails without
saying anything about names. -/
theorem Stock.run_choose (args : List (Value Stock)) :
    (∃ v ∈ args, Host.run choose args = .ok v) ∨
      ∃ err, Host.run choose args = .error err ∧ ∀ x, err ≠ .unbound x := by
  match args with
  | [c, a, b] =>
    cases c with
    | int n =>
      refine .inl ⟨if n = 0 then b else a, ?_, rfl⟩
      split <;> simp
    | closure _ _ _ | native _ _ => exact .inr ⟨_, rfl, fun x h => by cases h⟩
  | [] | [_] | [_, _] | _ :: _ :: _ :: _ :: _ => exact .inr ⟨_, rfl, fun x h => by cases h⟩

/-- A function that has captured a name is chosen by the host and called twice. -/
theorem evaluate_resolves_names_chosen :
    let globals : Env Stock :=
      ("shift", .closure ["y"] (.call (.name "add") [.name "n", .name "y"]) [("n", .int 3)]) ::
        ("choose", .native (.host .choose) []) :: Interpreter.builtins
    let e : Expr := .call (.lam ["f"] (.call (.name "f") [.call (.name "f") [.int 1]]))
      [.call (.name "choose") [.int 0, .name "inc", .name "shift"]]
    Interpreter.evaluate ⟨globals, 10⟩ e = .ok (.int 7) ∧
      ∀ limit x, Interpreter.evaluate ⟨globals, limit⟩ e ≠ .error (.unbound x) := by
  intro globals e
  have hkeys : globals.map Prod.fst =
      ["shift", "choose", "inc", "dec", "add", "mul", "is_zero"] := rfl
  have hvalues : ∀ v ∈ globals.map Prod.snd, v.ClosedOver (· = .choose) globals := by
    intro v hv
    rcases List.mem_cons.mp hv with rfl | hv
    · refine .intro ?_ (List.forall_mem_singleton.mpr (Value.every_int trivial))
      have hfree : (Expr.call (.name "add") [.name "n", .name "y"]).freeNames =
          ["add", "n", "y"] := by rfl
      simp [Value.Uses, hfree, hkeys]
    rcases List.mem_cons.mp hv with rfl | hv
    · exact .intro rfl (List.forall_mem_nil _)
    · obtain ⟨binding, hb, rfl⟩ := List.mem_map.mp hv
      obtain ⟨f, -, rfl⟩ := List.mem_map.mp hb
      exact .intro trivial (List.forall_mem_nil _)
  have hbuilds : Host.Builds (· = Stock.choose) := by
    rintro f rfl args v hv
    rcases Stock.run_choose args with ⟨w, hw, hrun⟩ | ⟨err, hrun, -⟩
    · rw [hrun] at hv
      cases hv
      exact .arg hw
    · rw [hrun] at hv
      cases hv
  have hhost : ∀ f, f = Stock.choose → ∀ args x, Host.run f args ≠ .error (.unbound x) := by
    rintro f rfl args x hx
    rcases Stock.run_choose args with ⟨w, -, hrun⟩ | ⟨err, hrun, herr⟩
    · rw [hrun] at hx
      cases hx
    · rw [hrun] at hx
      exact herr x (Except.error.inj hx)
  have hfree : e.freeNames = ["choose", "inc", "shift"] := by rfl
  refine ⟨by cbv, ?_⟩
  intro limit
  have hG : ∀ x v, globals.lookup x = some v → v.ClosedOver (· = .choose) globals :=
    fun x v hv => hvalues v (Machine.mem_of_lookup hv)
  have he : ∀ x ∈ e.freeNames, x ∈ globals.map Prod.fst := by simp [hfree, hkeys]
  have h := @evaluate_resolves_names Stock _ _ hbuilds ⟨globals, limit⟩ hG e he
  exact h.2 hhost

end Curried
