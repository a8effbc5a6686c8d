import JsonDoc.Proofs.Token.Spelling
import JsonDoc.Document.Read

/-!
# Reading a document from a text

Each token that is scanned takes a state of reading to the next one.  `ReadState.Accepts` is a run
that comes to a document, told by the text that is left, and `ReadState.Reads` the part of a run
between two states.
-/

namespace JsonDoc.ReadState

variable {options : ReadOptions} {s s' s'' : ReadState} {cur next fin : Cursor} {tok : Token}
  {v : Value} {cause : Cause} {t u u' u'' : List Char}

/-! ### One token -/

theorem run_of_scan_error (h : Token.scan cur = .error cause next) :
    s.run options cur = .error cause next := by
  rw [ReadState.run]
  split <;> rename_i h' <;> rw [h] at h' <;> cases h'
  rfl

theorem run_of_scan_end (h : Token.scan cur = .ok .endOfInput next) :
    s.run options cur =
      match s.atEnd with
      | .ok v => .ok v next
      | .error cause => .error cause next := by
  rw [ReadState.run]
  split <;> rename_i h' <;> rw [h] at h' <;> cases h'
  refine (dif_pos rfl).trans ?_
  cases s.atEnd <;> rfl

theorem run_of_scan (h : Token.scan cur = .ok tok next) (ht : tok ≠ .endOfInput) :
    s.run options cur =
      match s.step options tok with
      | .ok s' => s'.run options next
      | .error cause => .error cause next := by
  rw [ReadState.run]
  split <;> rename_i h' <;> rw [h] at h' <;> cases h'
  rw [dif_neg ht]
  cases s.step options tok <;> rfl

/-- Two states go on in the same way, but for one token. -/
structure AlikeBut (options : ReadOptions) (close : Token) (s s' : ReadState) : Prop where
  atEnd_eq : s.atEnd = s'.atEnd
  step_eq : ∀ tok, tok ≠ close → s.step options tok = s'.step options tok

/-- The first element of an array is read as every other value, unless there is none. -/
theorem alikeBut_arrayStart (frames : List Frame) :
    AlikeBut options .endArray ⟨.arrayStart, frames⟩ ⟨.value, .element [] :: frames⟩ where
  atEnd_eq := rfl
  step_eq := by
    intro tok htok
    cases tok with
    | endArray => exact absurd rfl htok
    | _ => rfl

/-- The first key of an object is read as every other key, unless there is none. -/
theorem alikeBut_objectStart (frames : List Frame) :
    AlikeBut options .endObject ⟨.objectStart, frames⟩ ⟨.key .empty, frames⟩ where
  atEnd_eq := rfl
  step_eq := by
    intro tok htok
    cases tok with
    | endObject => exact absurd rfl htok
    | _ => rfl

theorem AlikeBut.run_eq {close : Token} (halike : AlikeBut options close s s')
    (h : ∀ next, Token.scan cur ≠ .ok close next) : s.run options cur = s'.run options cur := by
  cases hscan : Token.scan cur with
  | error cause next => rw [run_of_scan_error hscan, run_of_scan_error hscan]
  | ok tok next =>
    by_cases ht : tok = .endOfInput
    · subst ht
      rw [run_of_scan_end hscan, run_of_scan_end hscan, halike.atEnd_eq]
    · have htok : tok ≠ close := by
        rintro rfl
        exact h next hscan
      rw [run_of_scan hscan ht, run_of_scan hscan ht, halike.step_eq tok htok]

/-! ### What a step can be -/

section

variable {frames : List Frame} {members : Members Value} {key : String} {reversed : List Value}

theorem step_arrayNext
    (h : (ReadState.mk (.arrayNext reversed) frames).step options tok = .ok s') :
    (tok = .endArray ∧ s' = supply options.order (.array reversed.reverse) frames) ∨
      (tok = .valueSeparator ∧ s' = ⟨.value, .element reversed :: frames⟩) := by
  cases tok <;> cases h
  · exact Or.inl ⟨rfl, rfl⟩
  · exact Or.inr ⟨rfl, rfl⟩

theorem step_objectNext
    (h : (ReadState.mk (.objectNext members) frames).step options tok = .ok s') :
    (tok = .endObject ∧ s' = supply options.order (.object members) frames) ∨
      (tok = .valueSeparator ∧ s' = ⟨.key members, frames⟩) := by
  cases tok <;> cases h
  · exact Or.inl ⟨rfl, rfl⟩
  · exact Or.inr ⟨rfl, rfl⟩

theorem step_key (h : (ReadState.mk (.key members) frames).step options tok = .ok s') :
    ∃ key, tok = .string key ∧ s' = ⟨.colon members key, frames⟩ := by
  cases tok <;> cases h
  exact ⟨_, rfl, rfl⟩

theorem step_colon (h : (ReadState.mk (.colon members key) frames).step options tok = .ok s') :
    tok = .nameSeparator ∧ s' = ⟨.value, .member members key :: frames⟩ := by
  cases tok <;> cases h
  exact ⟨rfl, rfl⟩

theorem step_complete (h : (ReadState.mk (.complete v) frames).step options tok = .ok s') :
    False := by
  cases h

end

/-! ### Runs that accept -/

/-- Reading the text from the state comes to a document. -/
def Accepts (options : ReadOptions) (s : ReadState) (u : List Char) (v : Value) : Prop :=
  ∃ n p fin, s.run options ⟨Answer.chars u, n, p⟩ = .ok v fin

/-- A run that comes to a document ends behind it, or goes on after its first token. -/
theorem exists_scan_of_run (h : s.run options cur = .ok v fin) :
    ∃ tok next, Token.scan cur = .ok tok next ∧
      (tok = .endOfInput ∧ s.atEnd = .ok v ∨
        tok ≠ .endOfInput ∧ ∃ s', s.step options tok = .ok s' ∧ s'.run options next = .ok v fin) := by
  cases hscan : Token.scan cur with
  | error cause next =>
    rw [run_of_scan_error hscan] at h
    cases h
  | ok tok next =>
    refine ⟨tok, next, rfl, ?_⟩
    by_cases ht : tok = .endOfInput
    · subst ht
      rw [run_of_scan_end hscan] at h
      cases hend : s.atEnd with
      | error cause =>
        rw [hend] at h
        cases h
      | ok x =>
        rw [hend] at h
        cases h
        exact Or.inl ⟨rfl, rfl⟩
    · rw [run_of_scan hscan ht] at h
      cases hstep : s.step options tok with
      | error cause =>
        rw [hstep] at h
        cases h
      | ok s' =>
        rw [hstep] at h
        exact Or.inr ⟨ht, s', rfl, h⟩

theorem Accepts.exists_step (h : s.Accepts options u v) :
    ∃ tok u', ScansTo u tok u' ∧
      (tok = .endOfInput ∧ s.atEnd = .ok v ∨
        tok ≠ .endOfInput ∧ ∃ s', s.step options tok = .ok s' ∧ s'.Accepts options u' v) := by
  obtain ⟨n, p, fin, h⟩ := h
  obtain ⟨tok, next, hscan, hrun⟩ := exists_scan_of_run h
  obtain ⟨u', m, q, rfl, hu⟩ := exists_scansTo hscan
  refine ⟨tok, u', hu, hrun.imp_right fun ⟨ht, s', hstep, hrun'⟩ => ?_⟩
  exact ⟨ht, s', hstep, m, q, fin, hrun'⟩

theorem AlikeBut.run_eq_of_not_scansTo {close : Token} (halike : AlikeBut options close s s')
    (h : ∀ u', ¬ ScansTo u close u') (n : ℕ) (p : Bool) :
    s.run options ⟨Answer.chars u, n, p⟩ = s'.run options ⟨Answer.chars u, n, p⟩ := by
  refine halike.run_eq fun next hnext => ?_
  obtain ⟨u', -, -, -, hu⟩ := exists_scansTo hnext
  exact h u' hu

/-- What is accepted goes on after the one token, or is accepted from the other state as well. -/
theorem Accepts.of_alikeBut {close : Token} (halike : AlikeBut options close s s')
    (hclose : close ≠ .endOfInput) (hstep : s.step options close = .ok s'')
    (h : s.Accepts options u v) :
    (∃ u', ScansTo u close u' ∧ s''.Accepts options u' v) ∨ s'.Accepts options u v := by
  obtain ⟨n, p, fin, h⟩ := h
  by_cases hscan : ∃ u', ScansTo u close u'
  · obtain ⟨u', hu⟩ := hscan
    obtain ⟨m, q, hscan⟩ := hu.exists_scan n p
    rw [run_of_scan hscan hclose, hstep] at h
    exact Or.inl ⟨u', hu, m, q, fin, h⟩
  · rw [halike.run_eq_of_not_scansTo (not_exists.mp hscan)] at h
    exact Or.inr ⟨n, p, fin, h⟩

/-! ### Parts of runs -/

/-- Reading the text from the state goes on as reading another text from another state does, or, if
numbers may be out of range, stops at one that is. -/
def Reads (options : ReadOptions) (mayFail : Prop) (s : ReadState) (u : List Char) (s' : ReadState)
    (u' : List Char) : Prop :=
  ∀ n p, (∃ m q, s.run options ⟨Answer.chars u, n, p⟩ = s'.run options ⟨Answer.chars u', m, q⟩) ∨
    mayFail ∧ ∃ fin, s.run options ⟨Answer.chars u, n, p⟩ = .error .numberOutOfRange fin

variable {mayFail : Prop}

theorem Reads.trans (h : s.Reads options mayFail u s' u')
    (h' : s'.Reads options mayFail u' s'' u'') :
    s.Reads options mayFail u s'' u'' := by
  intro n p
  rcases h n p with ⟨m, q, hrun⟩ | hfail
  · rw [hrun]
    exact h' m q
  · exact Or.inr hfail

theorem AlikeBut.reads {close : Token} (halike : AlikeBut options close s s')
    (h : ∀ u', ¬ ScansTo u close u') : s.Reads options mayFail u s' u := fun n p =>
  Or.inl ⟨n, p, halike.run_eq_of_not_scansTo h n p⟩

theorem reads_of_step (h : ScansTo u tok u') (ht : tok ≠ .endOfInput)
    (hstep : s.step options tok = .ok s') : s.Reads options mayFail u s' u' := by
  intro n p
  obtain ⟨m, q, hscan⟩ := h.exists_scan n p
  refine Or.inl ⟨m, q, ?_⟩
  rw [run_of_scan hscan ht, hstep]

/-- A token, with blanks before it, takes the state to the next. -/
theorem reads_token {w : List Char} (hw : IsBlanks w) (ht : SpellsToken t tok) (u : List Char)
    (hstep : s.step options tok = .ok s') : s.Reads options mayFail (w ++ (t ++ u)) s' u :=
  reads_of_step (.token hw ht) (by cases ht <;> nofun) hstep

end JsonDoc.ReadState
