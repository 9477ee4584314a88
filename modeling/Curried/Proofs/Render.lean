import Curried.Proofs.ReadBack

/-!
The text of a term determines the term. A text is read from left to right, with a stack of what
stands around the term being read, and gives the term back. That callees have no parentheses of
their own does no harm: where one opens after a complete term, this term is the callee.
-/

namespace Curried

namespace Term

/-- The free names of a term are identifiers, and none of them reads as a bound variable. -/
def Legible (t : Term) : Prop :=
  ∀ x ∈ t.freeOccurrences, isIdentifier x = true ∧ Ident.ofName? x = none

def ofName (name : String) : Term := (Ident.ofName? name).elim (free name) var

inductive Around where
  | body (binder : Ident)
  | argument (callee : Term)

/-- What has been read of a term: the name of a variable or of a binder so far, or all of it. -/
inductive Part where
  | name (isBinder : Bool) (text : String)
  | whole (t : Term)

def Part.term? : Part → Option Term
  | name true _ => none
  | name false text => some (ofName text)
  | whole t => some t

structure Reader where
  around : List Around := []
  part : Part := .name false ""

namespace Reader

def paren (around : List Around) (t : Term) : Char → Option Reader
  | '(' => some { around := .argument t :: around }
  | ')' =>
    match around with
    | [] => none
    | .body x :: around => some ⟨around, .whole (.abs x t)⟩
    | .argument f :: around => some ⟨around, .whole (.app f t)⟩
  | _ => none

def step : Reader → Char → Option Reader
  | ⟨around, .name isBinder text⟩, c =>
    if Token.isNamePart c then some ⟨around, .name isBinder (text.push c)⟩
    else
      match isBinder, c with
      | false, 'λ' => some ⟨around, .name true ""⟩
      | false, c => paren around (ofName text) c
      | true, '.' => some ⟨around, .name true text⟩
      | true, _ => (Ident.ofName? text).map fun x => { around := .body x :: around }
  | ⟨around, .whole t⟩, c => paren around t c

def read (r : Reader) (cs : List Char) : Option Reader := cs.foldlM step r

@[simp] theorem read_nil (r : Reader) : r.read [] = some r := rfl

@[simp] theorem read_cons (r : Reader) (c : Char) (cs : List Char) :
    r.read (c :: cs) = (r.step c).bind fun s => s.read cs := rfl

@[simp] theorem read_append (r : Reader) (cs ds : List Char) :
    r.read (cs ++ ds) = (r.read cs).bind fun s => s.read ds := List.foldlM_append ..

theorem read_name (around : List Around) (isBinder : Bool) (w : String) {cs : List Char}
    (hc : cs.all Token.isNamePart = true) :
    read ⟨around, .name isBinder w⟩ cs = some ⟨around, .name isBinder (w ++ String.ofList cs)⟩ := by
  induction cs generalizing w with
  | nil => simp
  | cons c cs ih =>
    simp only [List.all_cons, Bool.and_eq_true] at hc
    have hs : step ⟨around, .name isBinder w⟩ c = some ⟨around, .name isBinder (w.push c)⟩ := by
      simp [step, hc.1]
    rw [read_cons, hs, Option.bind_some, ih _ hc.2, Token.Scanner.push_append_ofList]

/-- A whole identifier is read as a name. -/
theorem read_identifier (around : List Around) (isBinder : Bool) {x : String}
    (hx : isIdentifier x = true) :
    read ⟨around, .name isBinder ""⟩ x.toList = some ⟨around, .name isBinder x⟩ := by
  have hc : x.toList.all Token.isNamePart = true := by
    unfold isIdentifier at hx
    split at hx
    · cases hx
    · next c cs hl =>
      simp only [Bool.and_eq_true] at hx
      rw [hl, List.all_cons, Token.isNamePart_of_isNameStart hx.1.1, hx.1.2, Bool.and_self]
  rw [read_name around isBinder "" hc]
  simp

/-- Where a term may end, a parenthesis is read the same way whatever the term ended with. -/
theorem step_paren {part : Part} {t : Term} (h : part.term? = some t) (around : List Around)
    {c : Char} (hc : c = '(' ∨ c = ')') : step ⟨around, part⟩ c = paren around t c := by
  cases part with
  | whole u =>
    cases h
    rfl
  | name isBinder text =>
    cases isBinder with
    | true => cases h
    | false =>
      cases h
      rcases hc with rfl | rfl <;> rfl

/-- An abstraction begins with its binder and an open parenthesis. -/
theorem read_binder (around : List Around) (x : Ident) :
    read { around } ('λ' :: x.name.toList ++ ['.', '(']) =
      some { around := .body x :: around } := by
  have hl : step { around } 'λ' = some ⟨around, .name true ""⟩ := rfl
  have hd : step ⟨around, .name true x.name⟩ '.' = some ⟨around, .name true x.name⟩ := rfl
  have ho : step ⟨around, .name true x.name⟩ '(' =
      (Ident.ofName? x.name).map fun x => { around := .body x :: around } := rfl
  simp [hl, read_identifier around true (Ident.isIdentifier_name x), hd, ho]

/-- The text of a term is read as this term, whatever stands around it. -/
theorem exists_read_render {t : Term} (h : t.Legible) (around : List Around) :
    ∃ part, read { around } t.render.toList = some ⟨around, part⟩ ∧ part.term? = some t := by
  induction t generalizing around with
  | var x =>
    refine ⟨.name false x.name, read_identifier around false (Ident.isIdentifier_name x), ?_⟩
    simp [Part.term?, ofName]
  | free name =>
    obtain ⟨hi, hn⟩ := h name (by simp [freeOccurrences])
    refine ⟨.name false name, read_identifier around false hi, ?_⟩
    simp [Part.term?, ofName, hn]
  | abs x body ih =>
    obtain ⟨part, hp, ht⟩ := ih h (.body x :: around)
    refine ⟨.whole (.abs x body), ?_, rfl⟩
    have hr : (abs x body).render.toList =
        ('λ' :: x.name.toList ++ ['.', '(']) ++ (body.render.toList ++ [')']) := by simp [render]
    rw [hr, read_append, read_binder, Option.bind_some, read_append, hp, Option.bind_some,
      read_cons, step_paren ht _ (.inr rfl)]
    rfl
  | app callee argument ihf iha =>
    obtain ⟨f, hf, htf⟩ := ihf (fun x hx => h x (List.mem_append_left _ hx)) around
    -- The callee is complete when the parenthesis opens, although nothing has closed it.
    obtain ⟨a, ha, hta⟩ := iha (fun x hx => h x (List.mem_append_right _ hx))
      (.argument callee :: around)
    refine ⟨.whole (.app callee argument), ?_, rfl⟩
    have ho : paren around callee '(' = some { around := .argument callee :: around } := rfl
    have hr : (app callee argument).render.toList =
        callee.render.toList ++ '(' :: (argument.render.toList ++ [')']) := by simp [render]
    rw [hr, read_append, hf, Option.bind_some, read_cons, step_paren htf _ (.inl rfl), ho,
      Option.bind_some, read_append, ha, Option.bind_some, read_cons, step_paren hta _ (.inr rfl)]
    rfl

end Reader

def ofText? (text : String) : Option Term :=
  (Reader.read {} text.toList).bind fun r => r.part.term?

theorem ofText?_render {t : Term} (h : t.Legible) : ofText? t.render = some t := by
  obtain ⟨part, hr, ht⟩ := Reader.exists_read_render h []
  simp [ofText?, hr, ht]

theorem eq_of_render_eq {s t : Term} (hs : s.Legible) (ht : t.Legible) (h : s.render = t.render) :
    s = t := by
  have hr := ofText?_render hs
  rw [h, ofText?_render ht] at hr
  exact (Option.some.inj hr).symm

end Term

theorem Program.term_eq_ok_iff {text : String} {t : Term} :
    term text = .ok t ↔
      ∃ e c, parse text = .ok e ∧ Canonical.ofExpr .keep e = .ok c ∧ t = c.term := by
  unfold term
  cases parse text with
  | error err => simp [Except.mapError]
  | ok e =>
    cases hc : Canonical.ofExpr .keep e with
    | error err => simp [Except.mapError, hc]
    | ok c => simp [Except.mapError, hc, pure, Except.pure, eq_comm]

/-- The free names of the term of a text come from the text. -/
theorem Program.legible_term {text : String} {t : Term} (h : term text = .ok t) : t.Legible := by
  obtain ⟨e, c, hp, hc, rfl⟩ := term_eq_ok_iff.mp h
  intro x hx
  have hf := (Canonical.ofName?_of_mem_term hc hx).2
  rw [Canonical.freeOccurrences_term hc] at hx
  exact ⟨isIdentifier_of_parse hp x (Expr.mem_names_of_free hx), hf⟩

/-- Terms with the same text are the same. So two texts have the same canonical text exactly when
they have the same canonical term. -/
theorem render_eq_iff_term_eq :
    (∀ s t : Term, s.Legible → t.Legible → s.render = t.render → s = t) ∧
      ∀ (a b : String) (s t : Term), Program.term a = .ok s → Program.term b = .ok t →
        Program.normalize a = .ok s.render ∧ Program.normalize b = .ok t.render ∧
          (s.render = t.render ↔ s = t) := by
  refine ⟨fun s t => Term.eq_of_render_eq, ?_⟩
  intro a b s t ha hb
  refine ⟨by rw [Program.normalize, ha, Except.map], by rw [Program.normalize, hb, Except.map], ?_⟩
  exact ⟨Term.eq_of_render_eq (Program.legible_term ha) (Program.legible_term hb),
    congrArg Term.render⟩

/-- A function that is applied, and a function whose body is an application. -/
theorem render_ne_applied_function :
    let s : Term := .app (.abs ⟨0⟩ (.var ⟨0⟩)) (.free "y")
    let t : Term := .abs ⟨0⟩ (.app (.var ⟨0⟩) (.free "y"))
    s.Legible ∧ t.Legible ∧ s.render ≠ t.render ∧
      Program.normalize "(x -> x)(y)" = .ok s.render ∧
      Program.normalize "lambda z: z(y)" = .ok t.render := by
  intro s t
  have ha : Program.term "(x -> x)(y)" = .ok s := by decide +kernel
  have hb : Program.term "lambda z: z(y)" = .ok t := by decide +kernel
  have hs := Program.legible_term ha
  have ht := Program.legible_term hb
  obtain ⟨hna, hnb, -⟩ := render_eq_iff_term_eq.2 _ _ s t ha hb
  exact ⟨hs, ht, fun h => absurd (render_eq_iff_term_eq.1 s t hs ht h) (by decide), hna, hnb⟩

end Curried
