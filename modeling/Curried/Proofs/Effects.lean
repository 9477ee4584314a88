import Curried.Proofs.Naming
import Curried.Proofs.Record

namespace Curried

namespace Naming

inductive Step : Nat → State → State → Prop
  | enter (s : State) :
      Step 0 s { s with
        scopes := s.scopes.enter, events := s.events.push (.entered s.scopes.enter.depth) }
  | leave (s : State) (scopes : Scopes String Ident) (h : s.scopes.leave = .ok () scopes) :
      Step 0 s { s with scopes := scopes, events := s.events.push (.left scopes.depth) }
  | declare (s : State) (p : String) :
      Step 1 s
        { scopes := s.scopes.define p ⟨s.supply.issued⟩, supply := ⟨s.supply.issued + 1⟩,
          events := s.events.push (.allocated ⟨s.supply.issued⟩) }
  | note (s : State) (event : Event) (hop : event.op? = none) (hissued : event.issued? = none) :
      Step 0 s { s with events := s.events.push event }

inductive Reaches (s : State) : Nat → State → Prop
  | refl : Reaches s 0 s
  | tail {m n : Nat} {t u : State} : Reaches s m t → Step n t u → Reaches s (m + n) u

theorem Reaches.single {n : Nat} {s t : State} (h : Step n s t) : Reaches s n t :=
  Nat.zero_add n ▸ .tail .refl h

theorem Reaches.trans {m n : Nat} {s t u : State} (h : Reaches s m t) (h' : Reaches t n u) :
    Reaches s (m + n) u := by
  induction h' with
  | refl => exact h
  | tail _ hstep ih =>
    rw [← Nat.add_assoc]
    exact ih.tail hstep

def final {α : Type} (x : Action α) (s : State) : State :=
  match x s with
  | .ok _ t | .error _ t => t

def Stepwise {α : Type} (n : Nat) (x : Action α) : Prop := ∀ s, ∃ m ≤ n, Reaches s m (final x s)

section

variable {α β : Type} {m n : Nat} {x : Action α} {f : α → Action β}

theorem Stepwise.of_ok (h : Stepwise n x) {s t : State} {a : α} (hx : x s = .ok a t) :
    ∃ m ≤ n, Reaches s m t := by
  have ht := h s
  rwa [final, hx] at ht

theorem Stepwise.of_error (h : Stepwise n x) {s t : State} {err : CanonicalError}
    (hx : x s = .error err t) : ∃ m ≤ n, Reaches s m t := by
  have ht := h s
  rwa [final, hx] at ht

theorem stepwise_of_reaches (h : ∀ s, Reaches s n (final x s)) : Stepwise n x :=
  fun s => ⟨n, Nat.le_refl n, h s⟩

theorem stepwise_pure (a : α) : Stepwise 0 (pure a) := stepwise_of_reaches fun _ => .refl

theorem stepwise_throw (err : CanonicalError) : Stepwise n (throw err : Action α) :=
  fun _ => ⟨0, Nat.zero_le n, .refl⟩

theorem Stepwise.bind (hx : Stepwise m x) (hf : ∀ a, Stepwise n (f a)) :
    Stepwise (m + n) (x >>= f) := by
  intro s
  cases h : (x >>= f) s with
  | ok b t =>
    obtain ⟨a, u, ha, hb⟩ := estate_bind_eq_ok_iff.mp h
    rw [final, h]
    obtain ⟨k, hk, hsu⟩ := hx.of_ok ha
    obtain ⟨l, hl, hut⟩ := (hf a).of_ok hb
    exact ⟨k + l, Nat.add_le_add hk hl, hsu.trans hut⟩
  | error err t =>
    rw [final, h]
    rcases estate_bind_eq_error_iff.mp h with herr | ⟨a, u, ha, hb⟩
    · obtain ⟨k, hk, hst⟩ := hx.of_error herr
      exact ⟨k, Nat.le_add_right_of_le hk, hst⟩
    · obtain ⟨k, hk, hsu⟩ := hx.of_ok ha
      obtain ⟨l, hl, hut⟩ := (hf a).of_error hb
      exact ⟨k + l, Nat.add_le_add hk hl, hsu.trans hut⟩

end

theorem stepwise_emit {event : Event} (hop : event.op? = none) (hissued : event.issued? = none) :
    Stepwise 0 (emit event) :=
  stepwise_of_reaches fun s => .single (.note s event hop hissued)

theorem stepwise_enter : Stepwise 0 enter := stepwise_of_reaches fun s => .single (.enter s)

theorem stepwise_leave : Stepwise 0 leave := by
  apply stepwise_of_reaches
  intro s
  simp only [final, leave]
  cases h : s.scopes.leave with
  | ok _ scopes => exact .single (.leave s scopes h)
  | error err scopes =>
    obtain ⟨-, rfl, -⟩ := Scopes.leave_eq_error_iff.mp h
    exact .refl

theorem stepwise_declare (p : String) : Stepwise 1 (declare p) :=
  stepwise_of_reaches fun s => .single (.declare s p)

theorem stepwise_declareAll (earlier ps : List String) :
    Stepwise ps.length (declareAll earlier ps) := by
  induction ps generalizing earlier with
  | nil => exact stepwise_pure []
  | cons p ps ih =>
    rw [declareAll]
    split
    · exact stepwise_throw _
    · rw [List.length_cons, Nat.add_comm]
      exact (stepwise_declare p).bind fun x => (ih (p :: earlier)).bind fun xs => stepwise_pure _

theorem stepwise_resolve (policy : FreeNames) (x : String) : Stepwise 0 (resolve policy x) := by
  apply stepwise_of_reaches
  intro s
  simp only [final, resolve]
  cases s.scopes.find? x with
  | some id => exact .refl
  | none =>
    cases policy with
    | reject => exact .refl
    | keep =>
      by_cases h : (Ident.ofName? x).isSome = true
      · simp only [h, ↓reduceIte]
        exact .refl
      · simp only [h]
        exact .single (.note s (.keptFree x) rfl rfl)

mutual
theorem stepwise_term (policy : FreeNames) (e : Expr) : Stepwise e.paramCount (term policy e) := by
  match e with
  | .name x =>
    rw [term]
    exact stepwise_resolve policy x
  | .int n =>
    rw [term]
    exact stepwise_throw _
  | .lam params body =>
    rw [term]
    split
    · exact stepwise_throw _
    · rw [Expr.paramCount, ← Nat.zero_add (params.length + _)]
      exact stepwise_enter.bind fun _ => (stepwise_declareAll [] params).bind fun binders =>
        (stepwise_term policy body).bind fun t => stepwise_leave.bind fun _ => stepwise_pure _
  | .call callee args =>
    rw [term]
    split
    · exact stepwise_throw _
    · exact (stepwise_term policy callee).bind fun f => stepwise_applyArgs policy f args
theorem stepwise_applyArgs (policy : FreeNames) (f : Term) (as : List Expr) :
    Stepwise (Expr.paramCounts as) (applyArgs policy f as) := by
  match as with
  | [] =>
    rw [applyArgs]
    exact stepwise_pure f
  | a :: as =>
    rw [applyArgs]
    exact (stepwise_term policy a).bind fun t => stepwise_applyArgs policy _ as
end

theorem stepwise_canonical (policy : FreeNames) (e : Expr) :
    Stepwise e.paramCount (canonical policy e) := by
  have hget : Stepwise 0 (get : Action State) := stepwise_of_reaches fun _ => .refl
  rw [canonical, ← Nat.zero_add e.paramCount]
  exact (stepwise_emit rfl rfl).bind fun _ => (stepwise_term policy e).bind fun t =>
    hget.bind fun s => (stepwise_emit rfl rfl).bind fun _ => stepwise_pure _

/-- The record of a state agrees with it: the scopes that are open were entered and not left, and
the `n` identifiers that are gone were issued in order. -/
structure Faithful (n : Nat) (s : State) : Prop where
  nested : Event.nestAll 0 s.events.toList = some s.scopes.outer.length
  issued : s.supply.issued = .ofNat n
  names : Event.issuedNames s.events.toList = (List.range n).map fun k => (Ident.nth k).name

theorem faithful_init : Faithful 0 {} := ⟨rfl, rfl, rfl⟩

/-- One more event is recorded, which issues nothing. -/
theorem Faithful.push {n : Nat} {s t : State} {event : Event} (hs : Faithful n s)
    (h : t.events = s.events.push event) (hsupply : t.supply = s.supply)
    (hn : event.nest s.scopes.outer.length = some t.scopes.outer.length)
    (hi : Event.issuedNames [event] = []) : Faithful n t := by
  constructor
  · rw [h, Array.toList_push]
    exact Event.nestAll_concat hs.nested hn
  · rw [hsupply, hs.issued]
  · rw [h, Array.toList_push, Event.issuedNames_append, hs.names, hi, List.append_nil]

theorem Faithful.step {m n : Nat} {s t : State} (hs : Faithful m s) (h : Step n s t) :
    Faithful (m + n) t := by
  cases h with
  | enter => exact hs.push rfl rfl (Event.nest_entered_eq_some_iff.mpr ⟨rfl, rfl⟩) rfl
  | leave _ scopes hleave =>
    have hlength := Scopes.length_outer_of_leave hleave
    exact hs.push rfl rfl (Event.nest_left_eq_some_iff.mpr ⟨hlength, rfl⟩) rfl
  | declare =>
    refine ⟨?_, ?_, ?_⟩
    · rw [Array.toList_push]
      exact Event.nestAll_concat hs.nested rfl
    · rw [hs.issued, UInt64.ofNat_add]
      rfl
    · rw [Array.toList_push, Event.issuedNames_append, hs.names, List.range_succ, List.map_append,
        hs.issued]
      rfl
  | note _ event hop hissued =>
    have hnone : Event.issuedNames [event] = [] := by simp [Event.issuedNames, hissued]
    exact hs.push rfl rfl (Event.nest_of_op?_eq_none hop _) hnone

theorem Faithful.reaches {m n : Nat} {s t : State} (hs : Faithful m s) (h : Reaches s n t) :
    Faithful (m + n) t := by
  induction h with
  | refl => exact hs
  | tail _ hstep ih =>
    rw [← Nat.add_assoc]
    exact ih.step hstep

/-- As long as no identifier is issued twice, the names count up. -/
theorem Faithful.names_of_le {n : Nat} {s : State} (hs : Faithful n s) (hn : n ≤ UInt64.size) :
    Event.issuedNames s.events.toList =
      (List.range n).map fun k => "x" ++ Text.Decimal.ofNat k := by
  rw [hs.names]
  apply List.map_congr_left
  intro k hk
  rw [Ident.name, Ident.toNat_nth (Nat.lt_of_lt_of_le (List.mem_range.mp hk) hn)]

/-- Whatever the scopes are, they hold some names. -/
theorem State.holds_flatten (s : State) : s.Holds s.scopes.flatten.toList := by
  intro x
  rw [Scopes.lookup_toList_flatten]

theorem advanced_of_term {policy : FreeNames} {e : Expr} {s s' : State} {t : Term}
    (h : term policy e s = .ok t s') : Advanced e.paramCount s s' :=
  (term_eq_number e s.holds_flatten UInt64.ofNat_toNat.symm h).2.1

/-- The binders in preorder are the identifiers issued on the way. -/
theorem binders_of_term {policy : FreeNames} {e : Expr} {s s' : State} {t : Term}
    (h : term policy e s = .ok t s') :
    t.binders = (List.range' s.supply.issued.toNat e.paramCount).map .nth := by
  obtain ⟨-, -, m, hm, rfl⟩ := term_eq_number e s.holds_flatten UInt64.ofNat_toNat.symm h
  rw [Nameless.binders_number, (Expr.kept_of_nameless? hm).absCount]

end Naming

/-- Naming an expression in any state restores the scopes frame by frame, and counts one identifier
for each parameter. As long as the count does not wrap around, every binder of the term is one of
these. -/
theorem term_restores_scopes {policy : FreeNames} {e : Expr} {s s' : Naming.State} {t : Term}
    (h : Naming.term policy e s = .ok t s') :
    s'.scopes.frames = s.scopes.frames ∧
      s'.supply.issued = s.supply.issued + .ofNat e.paramCount ∧
      (s.supply.issued.toNat + e.paramCount < UInt64.size →
        s'.supply.issued.toNat = s.supply.issued.toNat + e.paramCount ∧
          ∀ x ∈ t.binders, s.supply.issued ≤ x.index ∧ x.index < s'.supply.issued) := by
  have hadv := Naming.advanced_of_term h
  refine ⟨by rw [hadv.scopes], hadv.issued, ?_⟩
  intro hsize
  have hissued : s'.supply.issued.toNat = s.supply.issued.toNat + e.paramCount := by
    rw [hadv.issued_of UInt64.ofNat_toNat.symm]
    exact UInt64.toNat_ofNat_of_lt hsize
  refine ⟨hissued, ?_⟩
  intro x hx
  rw [Naming.binders_of_term h] at hx
  obtain ⟨n, hn, rfl⟩ := List.mem_map.mp hx
  obtain ⟨hle, hlt⟩ := List.mem_range'_1.mp hn
  rw [UInt64.le_iff_toNat_le, UInt64.lt_iff_toNat_lt, Ident.toNat_nth (by omega)]
  omega

/-- A function with a parameter `f` is called with `f`, in scopes that bind this name already. The
argument is named in the scopes from before the function. -/
theorem term_restores_scopes_shadowed :
    let s : Naming.State :=
      { scopes := (({} : Scopes String Ident).define "f" ⟨3⟩).enter, supply := ⟨5⟩ }
    let e : Expr := .call (.lam ["a", "f"] (.call (.name "f") [.name "a"])) [.name "f"]
    let t : Term := .app (.abs ⟨5⟩ (.abs ⟨6⟩ (.app (.var ⟨6⟩) (.var ⟨5⟩)))) (.var ⟨3⟩)
    ∃ s', Naming.term .keep e s = .ok t s' ∧ s'.scopes.frames = s.scopes.frames ∧
      s'.supply.issued.toNat = 5 + 2 ∧
      ∀ x ∈ t.binders, 5 ≤ x.index ∧ x.index < s'.supply.issued := by
  intro s e t
  obtain ⟨s', h⟩ : ∃ s', Naming.term .keep e s = .ok t s' := ⟨_, by rfl⟩
  obtain ⟨hframes, -, hcount⟩ := term_restores_scopes h
  exact ⟨s', h, hframes, hcount (by decide)⟩

mutual
def Expr.functionCount : Expr → Nat
  | .name _ | .int _ => 0
  | .lam _ body => 1 + body.functionCount
  | .call callee args => callee.functionCount + Expr.functionCounts args
def Expr.functionCounts : List Expr → Nat
  | [] => 0
  | a :: as => a.functionCount + Expr.functionCounts as
end

theorem Term.freeOccurrences_curry (binders : List Ident) (body : Term) :
    (Term.curry binders body).freeOccurrences = body.freeOccurrences := by
  induction binders with
  | nil => rfl
  | cons x binders ih => exact ih

namespace Naming

structure Recorded (functions : Nat) (names : List String) (s s' : State) : Prop where
  entries : Event.entries s'.events.toList = Event.entries s.events.toList + functions
  warnings : Event.warnings s'.events.toList =
    Event.warnings s.events.toList ++ names.map .keptFree

theorem Recorded.refl (s : State) : Recorded 0 [] s s := ⟨rfl, (List.append_nil _).symm⟩

theorem Recorded.trans {m n : Nat} {xs ys : List String} {s₁ s₂ s₃ : State}
    (h : Recorded m xs s₁ s₂) (h' : Recorded n ys s₂ s₃) : Recorded (m + n) (xs ++ ys) s₁ s₃ := by
  constructor
  · rw [h'.entries, h.entries, Nat.add_assoc]
  · rw [h'.warnings, h.warnings, List.append_assoc, List.map_append]

/-- One more event is recorded. -/
theorem recorded_push {functions : Nat} {names : List String} {event : Event} {s s' : State}
    (h : s'.events = s.events.push event) (he : Event.entries [event] = functions)
    (hw : Event.warnings [event] = names.map .keptFree) : Recorded functions names s s' := by
  constructor
  · rw [h, Array.toList_push, Event.entries, Event.ops_append, List.countP_append, ← he]
    rfl
  · rw [h, Array.toList_push, Event.warnings, List.filter_append, ← hw]
    rfl

theorem recorded_of_enter {s s' : State} (h : enter s = .ok () s') : Recorded 1 [] s s' := by
  cases h
  exact recorded_push rfl rfl rfl

theorem recorded_of_leave {s s' : State} (h : leave s = .ok () s') : Recorded 0 [] s s' := by
  simp only [leave] at h
  split at h
  · cases h
    exact recorded_push rfl rfl rfl
  · cases h

theorem recorded_of_declare {p : String} {s s' : State} {x : Ident} (h : declare p s = .ok x s') :
    Recorded 0 [] s s' := by
  cases h
  exact recorded_push rfl rfl rfl

theorem recorded_of_declareAll {earlier ps : List String} {s s' : State} {xs : List Ident}
    (h : declareAll earlier ps s = .ok xs s') : Recorded 0 [] s s' := by
  induction ps generalizing earlier s xs with
  | nil =>
    cases h
    exact .refl _
  | cons p ps ih =>
    simp only [declareAll] at h
    split at h
    · cases h
    · obtain ⟨x, s₁, hx, h⟩ := estate_bind_eq_ok_iff.mp h
      obtain ⟨ys, s₂, hys, h⟩ := estate_bind_eq_ok_iff.mp h
      cases h
      exact (recorded_of_declare hx).trans (ih hys)

mutual
/-- The record tells of each function of an expression and of each free name in its term. -/
theorem recorded_of_term {policy : FreeNames} {s s' : State} {t : Term} (e : Expr)
    (h : term policy e s = .ok t s') : Recorded e.functionCount t.freeOccurrences s s' := by
  match e with
  | .name x =>
    simp only [term] at h
    rcases (resolve_eq_ok_iff s.holds_flatten).mp h with ⟨id, -, rfl, rfl⟩ | ⟨-, -, -, rfl, rfl⟩
    · exact .refl _
    · exact recorded_push rfl rfl rfl
  | .int n =>
    simp only [term] at h
    cases h
  | .lam params body =>
    simp only [term] at h
    split at h
    · cases h
    · obtain ⟨_, s₁, he, h⟩ := estate_bind_eq_ok_iff.mp h
      obtain ⟨xs, s₂, hd, h⟩ := estate_bind_eq_ok_iff.mp h
      obtain ⟨b, s₃, hb, h⟩ := estate_bind_eq_ok_iff.mp h
      obtain ⟨_, s₄, hl, h⟩ := estate_bind_eq_ok_iff.mp h
      cases h
      have hhead := (recorded_of_enter he).trans (recorded_of_declareAll hd)
      have hall := (hhead.trans (recorded_of_term body hb)).trans (recorded_of_leave hl)
      simpa [Term.freeOccurrences_curry, Expr.functionCount] using hall
  | .call callee args =>
    simp only [term] at h
    split at h
    · cases h
    · obtain ⟨f, s₁, hf, h⟩ := estate_bind_eq_ok_iff.mp h
      obtain ⟨names, hnames, hargs⟩ := recorded_of_applyArgs args h
      rw [hnames]
      exact (recorded_of_term callee hf).trans hargs
theorem recorded_of_applyArgs {policy : FreeNames} {s s' : State} {f t : Term} (as : List Expr)
    (h : applyArgs policy f as s = .ok t s') :
    ∃ names, t.freeOccurrences = f.freeOccurrences ++ names ∧
      Recorded (Expr.functionCounts as) names s s' := by
  match as with
  | [] =>
    cases h
    exact ⟨[], (List.append_nil _).symm, .refl s⟩
  | a :: as =>
    simp only [applyArgs] at h
    obtain ⟨b, s₁, hb, h⟩ := estate_bind_eq_ok_iff.mp h
    obtain ⟨names, hnames, hargs⟩ := recorded_of_applyArgs as h
    refine ⟨b.freeOccurrences ++ names, ?_, (recorded_of_term a hb).trans hargs⟩
    rw [hnames, Term.freeOccurrences, List.append_assoc]
end

theorem recorded_of_canonical {policy : FreeNames} {e : Expr} {s s' : State} {c : Canonical}
    (h : canonical policy e s = .ok c s') :
    Recorded e.functionCount c.term.freeOccurrences s s' := by
  obtain ⟨t, s₁, ht, rfl, rfl⟩ := canonical_eq_ok_iff.mp h
  have hfirst : Recorded 0 [] s { s with events := s.events.push (.compiling e) } :=
    recorded_push rfl rfl rfl
  have hlast : Recorded 0 [] s₁
      { s₁ with events := s₁.events.push (.compiled t s₁.supply.issued) } :=
    recorded_push rfl rfl rfl
  simpa using (hfirst.trans (recorded_of_term e ht)).trans hlast

end Naming

theorem Canonical.trace_fst (policy : FreeNames) (e : Expr) :
    (trace policy e).1 = (Naming.final (Naming.canonical policy e) {}).events := by
  rw [trace, Naming.final]
  cases Naming.canonical policy e {} <;> rfl

/-- The record of an expression that has a canonical term is well bracketed, with a scope for each
function. The warnings are those of the free names of the term from left to right. Without a term
the record is still the first part of one that is well bracketed. If the identifiers suffice, they
are issued in order, up to the number that the term has if there is one. -/
theorem trace_bracketed_and_complete (policy : FreeNames) (e : Expr) :
    let events := (Canonical.trace policy e).1.toList
    (∀ c, Canonical.ofExpr policy e = .ok c →
      Event.Bracketed events ∧ Event.entries events = e.functionCount ∧
      (e.paramCount < UInt64.size → Event.issuedNames events =
        (List.range c.identifiers.toNat).map fun n => "x" ++ Text.Decimal.ofNat n) ∧
      Event.warnings events = c.term.freeOccurrences.map .keptFree) ∧
    ∀ err, Canonical.ofExpr policy e = .error err →
      (∃ rest, Event.Bracketed (events ++ rest)) ∧
      (e.paramCount < UInt64.size → ∃ issued, Event.issuedNames events =
        (List.range issued).map fun n => "x" ++ Text.Decimal.ofNat n) := by
  intro events
  obtain ⟨n, hn, hreaches⟩ := Naming.stepwise_canonical policy e {}
  have hfaithful : Naming.Faithful n (Naming.final (Naming.canonical policy e) {}) :=
    Nat.zero_add n ▸ Naming.faithful_init.reaches hreaches
  have hevents : events = (Naming.final (Naming.canonical policy e) {}).events.toList := by
    rw [← Canonical.trace_fst]
  rw [hevents]
  constructor
  · intro c hc
    obtain ⟨s', hs'⟩ := Canonical.ofExpr_eq_ok.mp hc
    have hrecorded := Naming.recorded_of_canonical hs'
    rw [Naming.final, hs'] at hfaithful ⊢
    obtain ⟨t, s, ht, rfl, rfl⟩ := Naming.canonical_eq_ok_iff.mp hs'
    have hroot : s.scopes.outer.length = 0 := by
      rw [(Naming.advanced_of_term ht).scopes]
      rfl
    have hnested : Event.nestAll 0 (s.events.push (.compiled t s.supply.issued)).toList = some 0 :=
      hroot ▸ hfaithful.nested
    refine ⟨Event.bracketed_of_nestAll hnested, hrecorded.entries.trans (Nat.zero_add _), ?_,
      hrecorded.warnings⟩
    intro hsize
    have hissued : s.supply.issued.toNat = n := by
      rw [show s.supply.issued = .ofNat n from hfaithful.issued]
      exact UInt64.toNat_ofNat_of_lt (Nat.lt_of_le_of_lt hn hsize)
    rw [hissued]
    exact hfaithful.names_of_le (Nat.le_of_lt (Nat.lt_of_le_of_lt hn hsize))
  · intro err _
    refine ⟨Event.exists_append_bracketed hfaithful.nested, fun hsize => ⟨n, ?_⟩⟩
    exact hfaithful.names_of_le (Nat.le_of_lt (Nat.lt_of_le_of_lt hn hsize))

/-- A function that calls another one, with a name that is kept twice. A parameter is repeated where
two scopes are open. -/
theorem trace_bracketed_and_complete_nested :
    let e : Expr := .lam ["a", "b"]
      (.call (.lam ["c"] (.call (.name "f") [.name "c"])) [.call (.name "f") [.name "g"]])
    let events := (Canonical.trace .keep e).1.toList
    let failing : Expr := .lam ["p"] (.call (.name "h") [.lam ["q", "q"] (.name "p")])
    Event.Bracketed events ∧ Event.entries events = 2 ∧
      Event.issuedNames events = ["x0", "x1", "x2"] ∧
      Event.warnings events = [.keptFree "f", .keptFree "f", .keptFree "g"] ∧
      Canonical.ofExpr .keep failing = .error (.unsupported (.repeatedParameter "q")) ∧
      ∃ rest, Event.Bracketed ((Canonical.trace .keep failing).1.toList ++ rest) := by
  intro e events failing
  have hok : Canonical.ofExpr .keep e = .ok ⟨.abs ⟨0⟩ (.abs ⟨1⟩ (.app
      (.abs ⟨2⟩ (.app (.free "f") (.var ⟨2⟩))) (.app (.free "f") (.free "g")))), 3⟩ := by rfl
  have hfail : Canonical.ofExpr .keep failing =
      .error (.unsupported (.repeatedParameter "q")) := by rfl
  obtain ⟨hbracketed, hentries, hissued, hwarnings⟩ :=
    (trace_bracketed_and_complete .keep e).1 _ hok
  obtain ⟨hfirst, -⟩ := (trace_bracketed_and_complete .keep failing).2 _ hfail
  exact ⟨hbracketed, hentries, hissued (by decide), hwarnings, hfail, hfirst⟩

end Curried
