import Curried.Proofs.Naming

namespace Curried

namespace Canonical

variable {policy : FreeNames} {e : Expr} {err : CanonicalError}

/-- An expression with faults fails with the first one, and one without any has a term. -/
theorem ofExpr_eq_error :
    ofExpr policy e = .error err ↔ (e.faults policy []).head? = some err := by
  constructor
  · exact head?_faults_of_ofExpr
  · intro h
    cases ho : ofExpr policy e with
    | error err' =>
      have hfault := head?_faults_of_ofExpr ho
      rw [h] at hfault
      cases hfault
      rfl
    | ok c =>
      rw [(Expr.faults_eq_nil_iff e).mpr (ofExpr_eq_ok_iff.mp ho).1] at h
      cases h

theorem exists_ofExpr_eq_error_iff :
    (∃ err, ofExpr policy e = .error err) ↔ e.faults policy [] ≠ [] := by
  simp only [ofExpr_eq_error, ← Option.isSome_iff_exists, List.isSome_head?]

end Canonical

structure Site where
  expr : Expr
  scope : List String

namespace Site

/-- The parts that no term can express: a function without parameters or with a repeated one, a call
without arguments, an integer, and a name that no function binds if it is that of an identifier or
if free names are rejected. -/
def Offends (policy : FreeNames) (s : Site) : Prop :=
  match s.expr with
  | .name x => x ∉ s.scope ∧ (policy = .reject ∨ (Ident.ofName? x).isSome)
  | .int _ => True
  | .lam params _ => params = [] ∨ ¬ params.Nodup
  | .call _ args => args = []

def fault? (policy : FreeNames) (s : Site) : Option CanonicalError :=
  match s.expr with
  | .name x =>
    if x ∈ s.scope then none
    else if policy = .reject then some (.scope (.unbound x))
    else if (Ident.ofName? x).isSome then some (.unsupported (.canonicalFreeName x))
    else none
  | .int n => some (.unsupported (.literal n))
  | .lam params _ =>
    if params = [] then some (.unsupported .noParameters)
    else (Expr.repeats [] params).head?.map fun p => .unsupported (.repeatedParameter p)
  | .call _ args => if args = [] then some (.unsupported .noArguments) else none

end Site

mutual
def Expr.sites (scope : List String) : Expr → List Site
  | .name x => [⟨.name x, scope⟩]
  | .int n => [⟨.int n, scope⟩]
  | .lam params body => ⟨.lam params body, scope⟩ :: body.sites (params.reverse ++ scope)
  | .call callee args =>
    ⟨.call callee args, scope⟩ :: (callee.sites scope ++ Expr.sitesAll scope args)
def Expr.sitesAll (scope : List String) : List Expr → List Site
  | [] => []
  | a :: as => a.sites scope ++ Expr.sitesAll scope as
end

namespace Site

/-- A part has an error exactly when no term can express it. -/
theorem isSome_fault?_iff {policy : FreeNames} (s : Site) :
    (s.fault? policy).isSome ↔ s.Offends policy := by
  obtain ⟨e, scope⟩ := s
  cases e with
  | name x =>
    by_cases hx : x ∈ scope
    · simp [fault?, Offends, hx]
    · cases policy <;> simp [fault?, Offends, hx]
  | int n => simp [fault?, Offends]
  | lam params body =>
    have hr : Expr.repeats [] params = [] ↔ params.Nodup := by
      simp [Expr.repeats_eq_nil_iff]
    by_cases hp : params = []
    · simp [fault?, Offends, hp]
    · simp [fault?, Offends, hp, ← hr]
  | call callee args => simp [fault?, Offends]

end Site

mutual
/-- The first fault is the error for the first part that has one. -/
theorem Expr.head?_faults (policy : FreeNames) (scope : List String) (e : Expr) :
    (e.faults policy scope).head? = (e.sites scope).findSome? (Site.fault? policy) := by
  match e with
  | .name x =>
    by_cases hx : x ∈ scope
    · simp [faults, sites, Site.fault?, hx]
    · cases policy with
      | reject => simp [faults, freeFaults, sites, Site.fault?, hx]
      | keep =>
        by_cases hc : (Ident.ofName? x).isSome = true <;>
          simp [faults, freeFaults, sites, Site.fault?, hx, hc]
  | .int n => rfl
  | .lam params body =>
    rw [faults, sites, List.findSome?_cons, ← Expr.head?_faults policy _ body, List.head?_append,
      List.head?_append, List.head?_map, Site.fault?]
    by_cases hp : params = []
    · simp [hp]
    · cases hr : (repeats [] params).head? <;> simp [hp, hr]
  | .call callee args =>
    rw [faults, sites, List.findSome?_cons, List.findSome?_append,
      ← Expr.head?_faults policy _ callee, ← Expr.head?_faultsAll policy _ args, List.head?_append,
      List.head?_append, Site.fault?]
    by_cases ha : args = [] <;> simp [ha]
theorem Expr.head?_faultsAll (policy : FreeNames) (scope : List String) (as : List Expr) :
    (faultsAll policy scope as).head? = (sitesAll scope as).findSome? (Site.fault? policy) := by
  match as with
  | [] => rfl
  | a :: as =>
    rw [faultsAll, sitesAll, List.head?_append, List.findSome?_append,
      Expr.head?_faults policy scope a,
      Expr.head?_faultsAll policy scope as]
end

/-- The errors for parts are of two kinds. -/
theorem Site.fault?_eq_some {policy : FreeNames} {s : Site} {err : CanonicalError}
    (h : s.fault? policy = some err) :
    (∃ construct, err = .unsupported construct) ∨ ∃ x, err = .scope (.unbound x) := by
  obtain ⟨e, scope⟩ := s
  cases e with
  | name x =>
    simp only [fault?] at h
    split at h
    · cases h
    split at h
    · cases h
      exact .inr ⟨x, rfl⟩
    split at h
    · cases h
      exact .inl ⟨_, rfl⟩
    · cases h
  | int n =>
    cases h
    exact .inl ⟨_, rfl⟩
  | lam params body =>
    simp only [fault?] at h
    split at h
    · cases h
      exact .inl ⟨_, rfl⟩
    · obtain ⟨p, -, rfl⟩ := Option.map_eq_some_iff.mp h
      exact .inl ⟨_, rfl⟩
  | call callee args =>
    simp only [fault?] at h
    split at h
    · cases h
      exact .inl ⟨_, rfl⟩
    · cases h

theorem Expr.faults_ne_nil_iff {policy : FreeNames} {scope : List String} (e : Expr) :
    e.faults policy scope ≠ [] ↔ ∃ s ∈ e.sites scope, s.Offends policy := by
  rw [← List.isSome_head?, head?_faults, List.findSome?_isSome_iff]
  simp only [Site.isSome_fault?_iff]

/-- An expression has no canonical term exactly when some part of it offends, and the error is that
of the first part that does. No scope is left that was not entered, and no term is found
ill-formed. -/
theorem canonical_fails_at_first_offence (policy : FreeNames) (e : Expr) :
    ((∃ err, Canonical.ofExpr policy e = .error err) ↔ ∃ s ∈ e.sites [], s.Offends policy) ∧
    ∀ err, Canonical.ofExpr policy e = .error err →
      (e.sites []).findSome? (Site.fault? policy) = some err ∧
      err ≠ .scope .onlyRoot ∧ ∀ v, err ≠ .illFormed v := by
  constructor
  · rw [Canonical.exists_ofExpr_eq_error_iff, Expr.faults_ne_nil_iff]
  · intro err h
    have hfirst := Canonical.ofExpr_eq_error.mp h
    rw [Expr.head?_faults] at hfirst
    obtain ⟨s, -, hs⟩ := List.exists_of_findSome?_eq_some hfirst
    refine ⟨hfirst, ?_⟩
    rcases Site.fault?_eq_some hs with ⟨construct, rfl⟩ | ⟨x, rfl⟩
    · exact ⟨by simp, by simp⟩
    · exact ⟨by simp, by simp⟩

/-- The callee comes before the arguments, of which both offend. A name that looks like an
identifier is at fault for this if free names are kept, and for being free if they are rejected. -/
theorem canonical_fails_at_first_offence_callee :
    let e : Expr := .lam ["f"] (.call (.name "x0") [.call (.name "f") [], .int 3])
    Canonical.ofExpr .keep e = .error (.unsupported (.canonicalFreeName "x0")) ∧
      (e.sites []).findSome? (Site.fault? .keep) =
        some (.unsupported (.canonicalFreeName "x0")) ∧
      Canonical.ofExpr .reject e = .error (.scope (.unbound "x0")) ∧
      (e.sites []).findSome? (Site.fault? .reject) = some (.scope (.unbound "x0")) := by
  intro e
  have hk : Canonical.ofExpr .keep e = .error (.unsupported (.canonicalFreeName "x0")) := by rfl
  have hr : Canonical.ofExpr .reject e = .error (.scope (.unbound "x0")) := by rfl
  have hk' := ((canonical_fails_at_first_offence .keep e).2 _ hk).1
  have hr' := ((canonical_fails_at_first_offence .reject e).2 _ hr).1
  exact ⟨hk, hk', hr, hr'⟩

end Curried
