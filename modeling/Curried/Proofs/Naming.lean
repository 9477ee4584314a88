import Curried.Proofs.Admissible
import Curried.Proofs.Success

/-!
Naming is numbering of the nameless form. An expression has a term exactly when it is admissible,
and the term is then its nameless form with the next identifiers put in. Naming an expression that
is not admissible fails with the first of its faults.
-/

namespace Curried

open Naming

namespace Naming

def State.Holds (s : State) (env : List (String × Ident)) : Prop :=
  ∀ x, s.scopes.find? x = env.lookup x

/-- Looking a name up finds the identifier at its distance. -/
theorem lookup_eq_idxOf? (env : List (String × Ident)) (x : String) :
    env.lookup x =
      ((env.map Prod.fst).idxOf? x).map fun i => (env.map Prod.snd).getD i default := by
  induction env with
  | nil => rfl
  | cons entry env ih =>
    obtain ⟨y, id⟩ := entry
    by_cases h : x = y
    · subst h
      simp [List.idxOf?_cons]
    · have hb : (x == y) = false := by simpa using h
      have hb' : (y == x) = false := by simpa using Ne.symm h
      simp [List.lookup_cons, List.idxOf?_cons, hb, hb', ih, Function.comp_def]

structure Declared (env : List (String × Ident)) (ps : List String) (k : Nat) (s s' : State) :
    Prop where
  holds : s'.Holds ((ps.zip ((List.range' k ps.length).map .nth)).reverse ++ env)
  outer : s'.scopes.outer = s.scopes.outer
  issued : s'.supply.issued = .ofNat (k + ps.length)

theorem fst_declared (env : List (String × Ident)) (ps : List String) (k : Nat) :
    ((ps.zip ((List.range' k ps.length).map Ident.nth)).reverse ++ env).map Prod.fst =
      ps.reverse ++ env.map Prod.fst := by
  simp [List.map_fst_zip]

theorem snd_declared (env : List (String × Ident)) (ps : List String) (k : Nat) :
    ((ps.zip ((List.range' k ps.length).map Ident.nth)).reverse ++ env).map Prod.snd =
      ((List.range' k ps.length).map Ident.nth).reverse ++ env.map Prod.snd := by
  simp [List.map_snd_zip]

theorem holds_define {s : State} {env : List (String × Ident)} (hs : s.Holds env) (p : String)
    (x : Ident) (supply : Supply) (events : Array Event) :
    State.Holds ⟨s.scopes.define p x, supply, events⟩ ((p, x) :: env) := by
  intro y
  rw [Scopes.find?_define, hs y, List.lookup_cons]
  by_cases h : p = y
  · simp [h]
  · have hb : (y == p) = false := by simpa using Ne.symm h
    simp [h, hb]

theorem declare_of_issued {s : State} {k : Nat} (hk : s.supply.issued = .ofNat k) (p : String) :
    declare p s = .ok (.nth k)
      { scopes := s.scopes.define p (.nth k), supply := ⟨.ofNat (k + 1)⟩,
        events := s.events.push (.allocated (.nth k)) } := by
  have hsucc : s.supply.issued + 1 = .ofNat (k + 1) := by rw [hk, UInt64.ofNat_add]; rfl
  simp only [declare, Supply.next, hsucc]
  rw [hk]
  rfl

theorem declared_of_declareAll {env : List (String × Ident)} {earlier ps : List String} {k : Nat}
    {s s' : State} {xs : List Ident} (hs : s.Holds env) (hk : s.supply.issued = .ofNat k)
    (h : declareAll earlier ps s = .ok xs s') :
    (∀ p ∈ ps, p ∉ earlier) ∧ ps.Nodup ∧ xs = (List.range' k ps.length).map .nth ∧
      Declared env ps k s s' := by
  induction ps generalizing earlier s xs env k with
  | nil =>
    cases h
    exact ⟨nofun, List.nodup_nil, rfl, hs, rfl, hk⟩
  | cons p ps ih =>
    simp only [declareAll] at h
    split at h
    · cases h
    · next hp =>
      rw [estate_bind_of_ok (declare_of_issued hk p)] at h
      obtain ⟨ys, s₂, hys, h⟩ := estate_bind_eq_ok_iff.mp h
      cases h
      -- The later parameters are declared over this one, so that they come before it in the scope.
      obtain ⟨hne, hnd, rfl, hd⟩ := ih (holds_define hs p _ _ _) rfl hys
      refine ⟨?_, ?_, ?_, ?_⟩
      · intro q hq
        rcases List.mem_cons.mp hq with rfl | hq
        · exact hp
        · exact fun hm => hne q hq (List.mem_cons_of_mem p hm)
      · exact List.nodup_cons.mpr ⟨fun hm => hne p hm List.mem_cons_self, hnd⟩
      · simp [List.range'_succ]
      · refine ⟨?_, hd.outer, ?_⟩
        · simpa [List.range'_succ] using hd.holds
        · rw [hd.issued, List.length_cons, Nat.add_assoc, Nat.add_comm 1]

theorem resolve_eq_ok_iff {policy : FreeNames} {env : List (String × Ident)} {x : String}
    {s s' : State} {t : Term} (hs : s.Holds env) :
    resolve policy x s = .ok t s' ↔
      (∃ id, env.lookup x = some id ∧ t = .var id ∧ s' = s) ∨
      (env.lookup x = none ∧ policy = .keep ∧ Ident.ofName? x = none ∧ t = .free x ∧
        s' = { s with events := s.events.push (.keptFree x) }) := by
  simp only [resolve, hs x]
  cases env.lookup x with
  | some id => simp [eq_comm]
  | none =>
    cases policy with
    | reject => simp
    | keep => cases Ident.ofName? x <;> simp [eq_comm]

structure Advanced (params : Nat) (s s' : State) : Prop where
  scopes : s'.scopes = s.scopes
  issued : s'.supply.issued = s.supply.issued + .ofNat params

theorem Advanced.holds {params : Nat} {s s' : State} (h : Advanced params s s')
    {env : List (String × Ident)} (hs : s.Holds env) : s'.Holds env := by
  intro x
  rw [h.scopes]
  exact hs x

theorem Advanced.refl (s : State) : Advanced 0 s s := ⟨rfl, (UInt64.add_zero _).symm⟩

theorem Advanced.trans {m n : Nat} {s₁ s₂ s₃ : State} (h : Advanced m s₁ s₂)
    (h' : Advanced n s₂ s₃) : Advanced (m + n) s₁ s₃ :=
  ⟨h'.scopes.trans h.scopes, by rw [h'.issued, h.issued, UInt64.add_assoc, UInt64.ofNat_add]⟩

theorem Advanced.issued_of {params k : Nat} {s s' : State} (h : Advanced params s s')
    (hk : s.supply.issued = .ofNat k) : s'.supply.issued = .ofNat (k + params) := by
  rw [h.issued, hk, UInt64.ofNat_add]

/-- Leaving the scope that was entered restores the scopes before it. -/
theorem leave_eq_ok {s s' : State} {scopes : Scopes String Ident}
    (h : s.scopes.outer = scopes.frames) :
    leave s = .ok () s' ↔
      s' = { s with scopes := scopes, events := s.events.push (.left scopes.depth) } := by
  have hl : s.scopes.leave = .ok () scopes := by simp only [Scopes.leave, h, Scopes.frames]
  simp only [leave, hl, EStateM.Result.ok.injEq, true_and]
  exact eq_comm

theorem holds_enter {s : State} {env : List (String × Ident)} (hs : s.Holds env) (supply : Supply)
    (events : Array Event) : State.Holds ⟨s.scopes.enter, supply, events⟩ env := by
  intro x
  rw [Scopes.find?_enter]
  exact hs x

mutual
/-- The term of an expression is its nameless form, numbered from the next identifier on. -/
theorem term_eq_number {policy : FreeNames} {env : List (String × Ident)} {k : Nat} {s s' : State}
    {t : Term} (e : Expr) (hs : s.Holds env) (hk : s.supply.issued = .ofNat k)
    (h : term policy e s = .ok t s') :
    e.Admissible policy (env.map Prod.fst) ∧ Advanced e.paramCount s s' ∧
      ∃ m, e.nameless? (env.map Prod.fst) = some m ∧ t = m.number (env.map Prod.snd) k := by
  match e with
  | .name x =>
    simp only [term] at h
    rcases (resolve_eq_ok_iff hs).mp h with ⟨id, hx, rfl, rfl⟩ | ⟨hx, hp, hc, rfl, rfl⟩
    · rw [lookup_eq_idxOf?] at hx
      obtain ⟨i, hi, rfl⟩ := Option.map_eq_some_iff.mp hx
      have hm : x ∈ env.map Prod.fst := List.isSome_idxOf?.mp (by rw [hi]; rfl)
      exact ⟨.inl hm, .refl s', .bound i, by simp [Expr.nameless?, hi], rfl⟩
    · rw [lookup_eq_idxOf?, Option.map_eq_none_iff] at hx
      exact ⟨.inr ⟨hp, hc⟩, ⟨rfl, (Advanced.refl s).issued⟩, .free x, by simp [Expr.nameless?, hx],
        rfl⟩
  | .int n => simp [term] at h; cases h
  | .lam params body =>
    simp only [term] at h
    split at h
    · cases h
    · next hne =>
      obtain ⟨_, s₁, he, h⟩ := estate_bind_eq_ok_iff.mp h
      obtain ⟨xs, s₂, hd, h⟩ := estate_bind_eq_ok_iff.mp h
      obtain ⟨b, s₃, hb, h⟩ := estate_bind_eq_ok_iff.mp h
      obtain ⟨_, s₄, hl, h⟩ := estate_bind_eq_ok_iff.mp h
      cases h
      cases he
      have hs₁ := holds_enter hs s.supply (s.events.push (.entered s.scopes.enter.depth))
      obtain ⟨-, hnd, rfl, hdec⟩ := declared_of_declareAll hs₁ hk hd
      obtain ⟨hadm, hadv, m, hm, rfl⟩ := term_eq_number body hdec.holds hdec.issued hb
      have hout : s₃.scopes.outer = s.scopes.frames := by rw [hadv.scopes, hdec.outer]; rfl
      obtain rfl := (leave_eq_ok hout).mp hl
      rw [fst_declared] at hadm hm
      rw [snd_declared]
      refine ⟨⟨by simpa using hne, hnd, hadm⟩, ⟨rfl, ?_⟩, Nameless.absMany params.length m,
        by simp only [Expr.nameless?, hm, Option.map_some], ?_⟩
      · simp only [hadv.issued, hdec.issued, hk, Expr.paramCount, UInt64.ofNat_add,
          UInt64.add_assoc]
      · rw [Nameless.number_absMany]
  | .call callee args =>
    simp only [term] at h
    split at h
    · cases h
    · next hne =>
      obtain ⟨f, s₁, hf, h⟩ := estate_bind_eq_ok_iff.mp h
      obtain ⟨hadm, hadv, m, hm, rfl⟩ := term_eq_number callee hs hk hf
      have hkept := Expr.kept_of_nameless? hm
      obtain ⟨hadm', hadv', m', hm', rfl⟩ := applyArgs_eq_number args (hadv.holds hs)
        (by rw [hadv.issued_of hk, hkept.absCount]) h
      exact ⟨⟨by simpa using hne, hadm, hadm'⟩, hadv.trans hadv', m',
        by simp only [Expr.nameless?, hm, Option.bind_eq_bind, Option.bind_some, hm'], rfl⟩
theorem applyArgs_eq_number {policy : FreeNames} {env : List (String × Ident)} {s s' : State}
    {f : Nameless} {k : Nat} {t : Term} (as : List Expr) (hs : s.Holds env)
    (hk : s.supply.issued = .ofNat (k + f.absCount))
    (h : applyArgs policy (f.number (env.map Prod.snd) k) as s = .ok t s') :
    Expr.AdmissibleAll policy (env.map Prod.fst) as ∧ Advanced (Expr.paramCounts as) s s' ∧
      ∃ m, Expr.namelessArgs? (env.map Prod.fst) f as = some m ∧
        t = m.number (env.map Prod.snd) k := by
  match as with
  | [] =>
    cases h
    exact ⟨trivial, .refl s, f, by simp [Expr.namelessArgs?], rfl⟩
  | a :: as =>
    simp only [applyArgs] at h
    obtain ⟨b, s₁, hb, h⟩ := estate_bind_eq_ok_iff.mp h
    obtain ⟨hadm, hadv, m, hm, rfl⟩ := term_eq_number a hs hk hb
    have hkept := Expr.kept_of_nameless? hm
    have hnum : Term.app (f.number (env.map Prod.snd) k)
        (m.number (env.map Prod.snd) (k + f.absCount)) =
        (Nameless.app f m).number (env.map Prod.snd) k := rfl
    rw [hnum] at h
    obtain ⟨hadm', hadv', m', hm', rfl⟩ := applyArgs_eq_number as (hadv.holds hs)
      (by rw [hadv.issued_of hk, Nameless.absCount, hkept.absCount, Nat.add_assoc]) h
    exact ⟨⟨hadm, hadm'⟩, hadv.trans hadv', m',
      by simp only [Expr.namelessArgs?, hm, Option.bind_eq_bind, Option.bind_some, hm'], rfl⟩
end

/-- Declaring parameters fails at the first one that is repeated. -/
theorem head?_repeats_of_declareAll {earlier ps : List String} {s s' : State} {err : CanonicalError}
    (h : declareAll earlier ps s = .error err s') :
    ((Expr.repeats earlier ps).map fun p =>
      CanonicalError.unsupported (.repeatedParameter p)).head? = some err := by
  induction ps generalizing earlier s with
  | nil => cases h
  | cons p ps ih =>
    simp only [declareAll] at h
    split at h
    · next hp =>
      cases h
      simp only [Expr.repeats, hp, ↓reduceIte, List.map_cons, List.head?_cons]
    · next hp =>
      simp only [Expr.repeats, hp, ↓reduceIte]
      rcases estate_bind_eq_error_iff.mp h with hd | ⟨x, s₁, -, h⟩
      · cases hd
      · rcases estate_bind_eq_error_iff.mp h with hd | ⟨xs, s₂, -, h⟩
        · exact ih hd
        · cases h

/-- Only a name that is not in scope is refused, and then for what is wrong with it. -/
theorem freeFaults_of_resolve {policy : FreeNames} {env : List (String × Ident)} {s s' : State}
    {x : String} {err : CanonicalError} (hs : s.Holds env)
    (h : resolve policy x s = .error err s') :
    x ∉ env.map Prod.fst ∧ Expr.freeFaults policy x = [err] := by
  simp only [resolve, hs x] at h
  cases hl : env.lookup x with
  | some id =>
    rw [hl] at h
    cases h
  | none =>
    rw [hl] at h
    have hx : x ∉ env.map Prod.fst := by
      rwa [lookup_eq_idxOf?, Option.map_eq_none_iff, List.idxOf?_eq_none_iff] at hl
    refine ⟨hx, ?_⟩
    cases policy with
    | reject =>
      cases h
      rfl
    | keep =>
      by_cases hc : (Ident.ofName? x).isSome = true
      · simp only [hc, ↓reduceIte, EStateM.Result.error.injEq] at h
        simp only [Expr.freeFaults, hc, ↓reduceIte, h.1]
      · simp [hc] at h

/-- What comes later does not change the first fault. -/
theorem head?_append_of_head? {fs gs : List CanonicalError} {err : CanonicalError}
    (h : fs.head? = some err) : (fs ++ gs).head? = some err := by
  rw [List.head?_append, h, Option.some_or]

mutual
/-- Naming fails because of the first fault. -/
theorem head?_faults_of_term {policy : FreeNames} {env : List (String × Ident)} {k : Nat}
    {s s' : State} {err : CanonicalError} (e : Expr) (hs : s.Holds env)
    (hk : s.supply.issued = .ofNat k) (h : term policy e s = .error err s') :
    (e.faults policy (env.map Prod.fst)).head? = some err := by
  match e with
  | .name x =>
    rw [term] at h
    obtain ⟨hx, hf⟩ := freeFaults_of_resolve hs h
    simp only [Expr.faults, hx, ↓reduceIte, hf, List.head?_cons]
  | .int n =>
    cases h
    rfl
  | .lam params body =>
    rw [Expr.faults]
    simp only [term] at h
    split at h
    · next hp =>
      cases h
      rw [if_pos hp]
      rfl
    · next hp =>
      rw [if_neg hp, List.nil_append]
      rcases estate_bind_eq_error_iff.mp h with he | ⟨_, s₁, he, h⟩
      · cases he
      cases he
      have hs₁ := holds_enter hs s.supply (s.events.push (.entered s.scopes.enter.depth))
      rcases estate_bind_eq_error_iff.mp h with hd | ⟨xs, s₂, hd, h⟩
      · exact head?_append_of_head? (head?_repeats_of_declareAll hd)
      obtain ⟨hps, hnd, -, hdec⟩ := declared_of_declareAll hs₁ hk hd
      rw [Expr.repeats_eq_nil_iff.mpr ⟨hps, hnd⟩, List.map_nil, List.nil_append,
        ← fst_declared env params k]
      rcases estate_bind_eq_error_iff.mp h with hb | ⟨t, s₃, hb, h⟩
      · exact head?_faults_of_term body hdec.holds hdec.issued hb
      obtain ⟨-, hadv, -⟩ := term_eq_number body hdec.holds hdec.issued hb
      have hout : s₃.scopes.outer = s.scopes.frames := by rw [hadv.scopes, hdec.outer]; rfl
      rw [estate_bind_of_ok ((leave_eq_ok hout).mpr rfl)] at h
      cases h
  | .call callee args =>
    rw [Expr.faults]
    simp only [term] at h
    split at h
    · next ha =>
      cases h
      rw [if_pos ha]
      rfl
    · next ha =>
      rw [if_neg ha, List.nil_append]
      rcases estate_bind_eq_error_iff.mp h with hf | ⟨f, s₁, hf, h⟩
      · exact head?_append_of_head? (head?_faults_of_term callee hs hk hf)
      obtain ⟨hadm, hadv, -⟩ := term_eq_number callee hs hk hf
      rw [(Expr.faults_eq_nil_iff callee).mpr hadm, List.nil_append]
      exact head?_faults_of_applyArgs args (hadv.holds hs) (hadv.issued_of hk) h
theorem head?_faults_of_applyArgs {policy : FreeNames} {env : List (String × Ident)} {k : Nat}
    {s s' : State} {err : CanonicalError} {f : Term} (as : List Expr) (hs : s.Holds env)
    (hk : s.supply.issued = .ofNat k) (h : applyArgs policy f as s = .error err s') :
    (Expr.faultsAll policy (env.map Prod.fst) as).head? = some err := by
  match as with
  | [] => cases h
  | a :: as =>
    rw [Expr.faultsAll]
    rw [applyArgs] at h
    rcases estate_bind_eq_error_iff.mp h with ha | ⟨b, s₁, ha, h⟩
    · exact head?_append_of_head? (head?_faults_of_term a hs hk ha)
    obtain ⟨hadm, hadv, -⟩ := term_eq_number a hs hk ha
    rw [(Expr.faults_eq_nil_iff a).mpr hadm, List.nil_append]
    exact head?_faults_of_applyArgs as (hadv.holds hs) (hadv.issued_of hk) h
end

end Naming

theorem Canonical.ofExpr_eq_ok {policy : FreeNames} {e : Expr} {c : Canonical} :
    ofExpr policy e = .ok c ↔ ∃ s, Naming.canonical policy e {} = .ok c s := by
  simp only [ofExpr, trace]
  cases Naming.canonical policy e {} with
  | ok d s => simp
  | error err s => simp

theorem Canonical.ofExpr_eq_error_iff {policy : FreeNames} {e : Expr} {err : CanonicalError} :
    ofExpr policy e = .error err ↔ ∃ s, Naming.canonical policy e {} = .error err s := by
  simp only [ofExpr, trace]
  cases Naming.canonical policy e {} with
  | ok c s => simp
  | error err s => simp

/-- No name is in scope at first. -/
theorem Naming.holds_init (events : Array Event) : State.Holds ⟨{}, {}, events⟩ [] := by
  intro x
  simp [Scopes.find?, Scopes.frames]

theorem Naming.canonical_eq_ok_iff {policy : FreeNames} {e : Expr} {s₀ s' : State} {c : Canonical} :
    canonical policy e s₀ = .ok c s' ↔
      ∃ t s, term policy e { s₀ with events := s₀.events.push (.compiling e) } = .ok t s ∧
        c = ⟨t, s.supply.issued⟩ ∧
        s' = { s with events := s.events.push (.compiled t s.supply.issued) } := by
  have hemit : emit (.compiling e) s₀ =
      .ok () { s₀ with events := s₀.events.push (.compiling e) } := rfl
  rw [canonical, estate_bind_of_ok hemit, estate_bind_eq_ok_iff]
  constructor
  · rintro ⟨t, s, ht, h⟩
    cases h
    exact ⟨t, s, ht, rfl, rfl⟩
  · rintro ⟨t, s, ht, rfl, rfl⟩
    exact ⟨t, s, ht, rfl⟩

theorem Canonical.number_of_ofExpr {policy : FreeNames} {e : Expr} {c : Canonical}
    (h : ofExpr policy e = .ok c) :
    e.Admissible policy [] ∧
      ∃ m, e.nameless? [] = some m ∧ c = ⟨m.number [] 0, .ofNat e.paramCount⟩ := by
  have hs := Naming.holds_init (#[].push (.compiling e))
  obtain ⟨s', hc⟩ := ofExpr_eq_ok.mp h
  obtain ⟨t, s, ht, rfl, -⟩ := Naming.canonical_eq_ok_iff.mp hc
  obtain ⟨hadm, hadv, m, hm, rfl⟩ := Naming.term_eq_number e hs rfl ht
  exact ⟨hadm, m, hm, by rw [hadv.issued, UInt64.zero_add]; rfl⟩

/-- An expression without a term fails with the first of its faults. -/
theorem Canonical.head?_faults_of_ofExpr {policy : FreeNames} {e : Expr} {err : CanonicalError}
    (h : ofExpr policy e = .error err) : (e.faults policy []).head? = some err := by
  have hs := Naming.holds_init (#[].push (.compiling e))
  have hemit : Naming.emit (.compiling e) {} = .ok () ⟨{}, {}, #[].push (.compiling e)⟩ := rfl
  obtain ⟨s', hc⟩ := ofExpr_eq_error_iff.mp h
  rw [Naming.canonical, estate_bind_of_ok hemit] at hc
  rcases estate_bind_eq_error_iff.mp hc with ht | ⟨t, s, -, hc⟩
  · exact Naming.head?_faults_of_term e hs rfl ht
  · cases hc

/-- The expressions that have a canonical term, and this term: the nameless form, numbered from the
first identifier on. -/
theorem Canonical.ofExpr_eq_ok_iff {policy : FreeNames} {e : Expr} {c : Canonical} :
    ofExpr policy e = .ok c ↔
      e.Admissible policy [] ∧
        ∃ m, e.nameless? [] = some m ∧ c = ⟨m.number [] 0, .ofNat e.paramCount⟩ := by
  constructor
  · exact number_of_ofExpr
  · rintro ⟨hadm, m, hm, rfl⟩
    cases ho : ofExpr policy e with
    | ok d =>
      obtain ⟨-, m', hm', rfl⟩ := number_of_ofExpr ho
      rw [Option.some.inj (hm.symm.trans hm')]
    | error err =>
      have hfault := head?_faults_of_ofExpr ho
      rw [(Expr.faults_eq_nil_iff e).mpr hadm] at hfault
      cases hfault

/-- The nameless form of an expression is that of its canonical term, as long as no identifier is
issued twice. -/
theorem Canonical.nameless?_term {policy : FreeNames} {e : Expr} {c : Canonical}
    (hsize : e.paramCount ≤ UInt64.size) (h : ofExpr policy e = .ok c) :
    ∃ m, e.nameless? [] = some m ∧ c.term = m.number [] 0 ∧ c.term.nameless? [] = some m := by
  obtain ⟨-, m, hm, rfl⟩ := ofExpr_eq_ok_iff.mp h
  have hk := Expr.kept_of_nameless? hm
  refine ⟨m, hm, rfl, Nameless.nameless?_number hk.below ⟨List.nodup_nil, nofun⟩ ?_⟩
  rw [hk.absCount, Nat.zero_add]
  exact hsize

/-- Two expressions with parameters for no more than the 2^64 identifiers have the same canonical
term exactly when they have the same nameless form. -/
theorem term_eq_iff_nameless_eq {policy : FreeNames} {a b : Expr} {c d : Canonical}
    (hsa : a.paramCount ≤ UInt64.size) (hsb : b.paramCount ≤ UInt64.size)
    (ha : Canonical.ofExpr policy a = .ok c) (hb : Canonical.ofExpr policy b = .ok d) :
    ∃ m n, a.nameless? [] = some m ∧ b.nameless? [] = some n ∧ (c.term = d.term ↔ m = n) := by
  obtain ⟨m, hm, hc, hcm⟩ := Canonical.nameless?_term hsa ha
  obtain ⟨n, hn, hd, hdn⟩ := Canonical.nameless?_term hsb hb
  refine ⟨m, n, hm, hn, fun h => ?_, fun h => ?_⟩
  · rw [h, hdn] at hcm
    exact (Option.some.inj hcm).symm
  · rw [hc, hd, h]

/-- A function that gives its first parameter, and a curried one with a shadowed parameter. -/
theorem term_eq_shadowed_parameter :
    ∃ m n, (Expr.lam ["x", "y"] (.call (.name "k") [.name "x"])).nameless? [] = some m ∧
      (Expr.lam ["u"] (.lam ["u"] (.call (.name "k") [.name "u"]))).nameless? [] = some n ∧
      (Term.abs ⟨0⟩ (.abs ⟨1⟩ (.app (.free "k") (.var ⟨0⟩))) =
        Term.abs ⟨0⟩ (.abs ⟨1⟩ (.app (.free "k") (.var ⟨1⟩))) ↔ m = n) := by
  have ha : Canonical.ofExpr .keep (.lam ["x", "y"] (.call (.name "k") [.name "x"])) =
      .ok ⟨.abs ⟨0⟩ (.abs ⟨1⟩ (.app (.free "k") (.var ⟨0⟩))), 2⟩ := by rfl
  have hb : Canonical.ofExpr .keep (.lam ["u"] (.lam ["u"] (.call (.name "k") [.name "u"]))) =
      .ok ⟨.abs ⟨0⟩ (.abs ⟨1⟩ (.app (.free "k") (.var ⟨1⟩))), 2⟩ := by rfl
  exact term_eq_iff_nameless_eq (by decide) (by decide) ha hb

end Curried
