import JsonDoc.Proofs.Token.Numeral
import JsonDoc.Proofs.Token.Text

/-!
# What a token is refused for

A character refuses a token for a cause of its own (`TokenState.cause?_step`), and the end of the
input for being the end, or for a number that is out of range (`TokenState.cause?_atEnd`).  So no
scan finds that too many containers are open (`Token.scan_ne_tooDeep`), and none finds the end of
the input where a source fails (`TokenState.run_failed_ne_unexpectedEnd`).
-/

namespace JsonDoc

/-- The causes that a character refuses a token for. -/
def Cause.OfCharacter : Cause → Prop
  | .unexpectedEnd | .unexpectedToken .. | .trailingContent | .tooDeep | .source _ => False
  | _ => True

/-- The causes that the end of the input refuses a token for. -/
def Cause.OfEnd (cause : Cause) : Prop := cause = .unexpectedEnd ∨ cause = .numberOutOfRange

/-- The cause that a move gives for there being no token. -/
def Move.cause? {σ : Type} : Move σ → Option Cause
  | .reject cause => some cause
  | .rejectBefore cause => some cause
  | _ => none

theorem Move.cause?_map {σ τ : Type} (f : σ → τ) (m : Move σ) : (m.map f).cause? = m.cause? := by
  cases m <;> rfl

variable {cause : Cause}

/-- A number is refused for nothing but its range. -/
theorem Numeral.eq_of_cause?_settle {σ : Type} {n : Numeral}
    (h : (Move.settle n.token : Move σ).cause? = some cause) : cause = .numberOutOfRange := by
  rcases n.token_cases with ⟨i, ht⟩ | ⟨x, -, ht⟩ | ht <;> rw [ht] at h <;> cases h
  rfl

theorem Numeral.cause?_settle {σ : Type} {n : Numeral}
    (h : (Move.settle n.token : Move σ).cause? = some cause) : cause.OfCharacter := by
  rw [eq_of_cause?_settle h]
  trivial

theorem NumberState.cause?_afterInteger {n : Numeral} {c : Char}
    (h : (afterInteger n c).cause? = some cause) : cause.OfCharacter := by
  unfold afterInteger at h
  split at h
  · cases h
  · split at h
    · cases h
    · exact Numeral.cause?_settle h

theorem NumberState.cause?_step {s : NumberState} {c : Char}
    (h : (s.step c).cause? = some cause) : cause.OfCharacter := by
  cases s with
  | sign n =>
    simp only [step] at h
    split at h
    · cases h
    · cases h
    · cases h
      trivial
  | zero n =>
    simp only [step] at h
    split at h
    · cases h
      trivial
    · exact cause?_afterInteger h
  | integer n =>
    simp only [step] at h
    split at h
    · cases h
    · exact cause?_afterInteger h
  | point n =>
    simp only [step] at h
    split at h
    · cases h
    · cases h
      trivial
  | fraction n =>
    simp only [step] at h
    split at h
    · cases h
    · split at h
      · cases h
      · exact Numeral.cause?_settle h
  | mark n =>
    simp only [step] at h
    split at h
    · cases h
    · split at h
      · cases h
      · split at h
        · cases h
        · cases h
          trivial
  | markSign n negative =>
    simp only [step] at h
    split at h
    · cases h
    · cases h
      trivial
  | exponent n negative value =>
    simp only [step] at h
    split at h
    · cases h
    · exact Numeral.cause?_settle h

theorem NumberState.cause?_atEnd {s : NumberState} (h : s.atEnd.cause? = some cause) :
    cause.OfEnd := by
  cases s with
  | zero n | integer n | fraction n | exponent n _ _ => exact Or.inr (Numeral.eq_of_cause?_settle h)
  | _ => cases h; exact Or.inl rfl

theorem StringState.cause?_step {s : StringState} {c : Char}
    (h : (s.step c).cause? = some cause) : cause.OfCharacter := by
  unfold step closeUnit closePair at h
  repeat' split at h
  all_goals cases h <;> trivial

theorem TokenState.cause?_step {s : TokenState} {c : Char}
    (h : (s.step c).cause? = some cause) : cause.OfCharacter := by
  cases s with
  | blank =>
    simp only [step, first] at h
    repeat' split at h
    all_goals cases h <;> trivial
  | word d rest t =>
    simp only [step] at h
    repeat' split at h
    all_goals cases h <;> trivial
  | string s =>
    rw [step, Move.cause?_map] at h
    exact StringState.cause?_step h
  | number s =>
    rw [step, Move.cause?_map] at h
    exact NumberState.cause?_step h

theorem TokenState.cause?_atEnd {s : TokenState} (h : s.atEnd.cause? = some cause) :
    cause.OfEnd := by
  cases s with
  | blank => cases h
  | word | string => cases h; exact Or.inl rfl
  | number s => exact NumberState.cause?_atEnd h

/-- A move that leads to an error gives the cause of it, or goes on to it. -/
theorem TokenState.cause?_of_resolve {σ : Type} {here next cur : Cursor} {m : Move σ}
    {go : σ → EStateM.Result Cause Cursor Token} (h : resolve here next go m = .error cause cur) :
    m.cause? = some cause ∨ ∃ s, go s = .error cause cur := by
  cases m with
  | shift s => exact Or.inr ⟨s, h⟩
  | accept | acceptBefore => cases h
  | reject | rejectBefore => cases h; exact Or.inl rfl

theorem TokenState.run_ne_tooDeep (s : TokenState) (answers : List Answer) (n : ℕ) (cur : Cursor) :
    s.run answers n ≠ .error .tooDeep cur := by
  induction answers generalizing s n with
  | nil =>
    intro h
    rcases cause?_of_resolve h with h | ⟨e, -⟩
    · rcases cause?_atEnd h with h | h <;> cases h
    · exact e.elim
  | cons a rest ih =>
    intro h
    cases a with
    | ended =>
      rcases cause?_of_resolve h with h | ⟨e, -⟩
      · rcases cause?_atEnd h with h | h <;> cases h
      · exact e.elim
    | failed e => cases h
    | char c =>
      rcases cause?_of_resolve h with h | ⟨t, h⟩
      · exact cause?_step h
      · exact ih t (n + 1) h

theorem Token.scan_ne_tooDeep (cur next : Cursor) : Token.scan cur ≠ .error .tooDeep next :=
  TokenState.run_ne_tooDeep _ _ _ _

/-- The end of the input is not met before a failure of the source. -/
theorem TokenState.run_failed_ne_unexpectedEnd (s : TokenState) (cs : List Char) (e : SourceError)
    (n : ℕ) (cur : Cursor) :
    s.run (Answer.chars cs ++ [.failed e]) n ≠ .error .unexpectedEnd cur := by
  induction cs generalizing s n with
  | nil => nofun
  | cons c cs ih =>
    intro h
    rcases cause?_of_resolve h with h | ⟨t, h⟩
    · exact cause?_step h
    · exact ih t (n + 1) h

end JsonDoc
