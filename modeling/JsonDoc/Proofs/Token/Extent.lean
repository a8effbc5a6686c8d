import JsonDoc.Proofs.Token.Numeral
import JsonDoc.Proofs.Token.Spelling

/-!
# How far a token reaches

Characters that a token is read from either leave it unfinished, or settle it whatever comes after
them (`TokenState.run_append`).  So a scan either comes to the answers behind the characters, or has
the same outcome before all answers (`Token.scan_append`); and in a text it ends at the place that
its cursor tells (`Token.exists_split_of_scan`).
-/

namespace JsonDoc

/-- A text where the end of the input comes next is blank. -/
theorem ScansTo.of_endOfInput {u v : List Char} (h : ScansTo u .endOfInput v) : IsBlanks u ∧ v = [] := by
  generalize htok : Token.endOfInput = tok at h
  cases h with
  | endOfInput hw => exact ⟨hw, rfl⟩
  | token hw ht =>
    subst htok
    cases ht
  | @number w u l tok hw hu ht =>
    subst htok
    rcases l.numeral.token_cases with ⟨i, h⟩ | ⟨x, -, h⟩ | h <;> cases h.symm.trans ht

/-- The end of the input leaves a reader before it or after it. -/
theorem TokenState.stateAfter_resolve_atEnd {κ : Type} (here next : κ) (m : Move Empty) :
    stateAfter (resolve here next Empty.elim m) = here ∨
      stateAfter (resolve here next Empty.elim m) = next := by
  cases m with
  | shift e => exact e.elim
  | accept | reject => exact Or.inr rfl
  | acceptBefore | rejectBefore => exact Or.inl rfl

/-! ### Characters before other answers -/

namespace TokenState

/-- A token, or the reason why there is none, at a cursor. -/
def outcome (r : Except Cause Token) (cur : Cursor) : EStateM.Result Cause Cursor Token :=
  match r with
  | .ok t => .ok t cur
  | .error cause => .error cause cur

/-- The characters settle a token from a state on: the first of them are used, and what comes after
all of them does not matter. -/
def SettledBy (s : TokenState) (cs : List Char) (n : ℕ) (r : Except Cause Token)
    (used : List Char) : Prop :=
  ∃ left peeked, cs = used ++ left ∧ ∀ rest, s.run (Answer.chars cs ++ rest) n =
    outcome r ⟨Answer.chars left ++ rest, n + used.length, peeked⟩

variable {s t : TokenState} {c : Char} {cs used : List Char} {n : ℕ} {r : Except Cause Token}

theorem SettledBy.cons (hstep : s.step c = .shift t) (h : t.SettledBy cs (n + 1) r used) :
    s.SettledBy (c :: cs) n r (c :: used) := by
  obtain ⟨left, peeked, rfl, hrun⟩ := h
  refine ⟨left, peeked, rfl, fun rest => ?_⟩
  rw [run_append_of_shift hstep, hrun, List.length_cons, Nat.add_assoc, Nat.add_comm 1]

/-- Characters leave a token unfinished in some state, or settle it. -/
theorem run_append (s : TokenState) (cs : List Char) (n : ℕ) :
    (∃ t : TokenState, ∀ rest, s.run (Answer.chars cs ++ rest) n = t.run rest (n + cs.length)) ∨
      ∃ r used, s.SettledBy cs n r used := by
  induction cs generalizing s n with
  | nil => exact Or.inl ⟨s, fun rest => rfl⟩
  | cons c cs ih =>
    cases hstep : s.step c with
    | shift t =>
      rcases ih t (n + 1) with ⟨t', hrun⟩ | ⟨r, used, hsettled⟩
      · refine Or.inl ⟨t', fun rest => ?_⟩
        rw [run_append_of_shift hstep, hrun, List.length_cons, Nat.add_assoc, Nat.add_comm 1]
      · exact Or.inr ⟨r, c :: used, hsettled.cons hstep⟩
    | accept t =>
      refine Or.inr ⟨.ok t, [c], cs, false, rfl, fun rest => ?_⟩
      rw [Answer.chars_cons, List.cons_append, run, hstep]
      rfl
    | acceptBefore t =>
      refine Or.inr ⟨.ok t, [], c :: cs, true, rfl, fun rest => ?_⟩
      rw [Answer.chars_cons, List.cons_append, run, hstep]
      rfl
    | reject cause =>
      refine Or.inr ⟨.error cause, [c], cs, false, rfl, fun rest => ?_⟩
      rw [Answer.chars_cons, List.cons_append, run, hstep]
      rfl
    | rejectBefore cause =>
      refine Or.inr ⟨.error cause, [], c :: cs, true, rfl, fun rest => ?_⟩
      rw [Answer.chars_cons, List.cons_append, run, hstep]
      rfl

end TokenState

namespace Token

open TokenState

variable {cs : List Char} {n : ℕ} {peeked : Bool}

/-- The end of the input is not found before answers that do not end it. -/
theorem not_settledBy_endOfInput {used : List Char} :
    ¬ blank.SettledBy cs n (.ok .endOfInput) used := by
  rintro ⟨left, peeked, rfl, hrun⟩
  have hscan := hrun []
  rw [List.append_nil] at hscan
  obtain ⟨v, m, q, -, hscans⟩ := @exists_scansTo _ _ _ Bool.false _ hscan
  obtain ⟨hblanks, -⟩ := hscans.of_endOfInput
  have hfailed := hrun [.failed .invalidUtf8]
  rw [run_blanks hblanks] at hfailed
  cases hfailed

/-- Characters before other answers: a scan comes to what is behind them, or it has one outcome,
which uses a first part of them. -/
theorem scan_append (cs : List Char) (n : ℕ) (peeked : Bool) :
    (∃ t : TokenState, ∀ rest, scan ⟨Answer.chars cs ++ rest, n, peeked⟩ =
        t.run rest (n + cs.length)) ∨
      (∃ tok used left q, tok ≠ .endOfInput ∧ cs = used ++ left ∧ used ≠ [] ∧
        ∀ rest, scan ⟨Answer.chars cs ++ rest, n, peeked⟩ =
          .ok tok ⟨Answer.chars left ++ rest, n + used.length, q⟩) ∨
      ∃ cause used left q, cs = used ++ left ∧
        ∀ rest, scan ⟨Answer.chars cs ++ rest, n, peeked⟩ =
          .error cause ⟨Answer.chars left ++ rest, n + used.length, q⟩ := by
  rcases run_append blank cs n with hleft | ⟨r, used, hsettled⟩
  · exact Or.inl hleft
  · have hend := hsettled
    obtain ⟨left, q, hcs, hrun⟩ := hsettled
    cases r with
    | error cause => exact Or.inr (Or.inr ⟨cause, used, left, q, hcs, hrun⟩)
    | ok tok =>
      have htok : tok ≠ .endOfInput := by
        rintro rfl
        exact not_settledBy_endOfInput hend
      refine Or.inr (Or.inl ⟨tok, used, left, q, htok, hcs, ?_, hrun⟩)
      rintro rfl
      have hscan : scan ⟨Answer.chars cs ++ [], n, peeked⟩ = _ := hrun []
      have hlt := length_pending_scan_lt hscan htok
      rw [hcs] at hlt
      exact lt_irrefl _ hlt

/-- A scan of a text stops at the place that its cursor tells, whatever it comes to. -/
theorem exists_split_of_stateAfter (cs : List Char) (n : ℕ) (peeked : Bool) :
    ∃ used left q, cs = used ++ left ∧
      stateAfter (scan ⟨Answer.chars cs, n, peeked⟩) = ⟨Answer.chars left, n + used.length, q⟩ := by
  have hnil : ∀ ds, Answer.chars ds ++ [] = Answer.chars ds := fun _ => List.append_nil _
  rcases scan_append cs n peeked with ⟨t, hrun⟩ | ⟨tok, used, left, q, -, hcs, -, hrun⟩ |
    ⟨cause, used, left, q, hcs, hrun⟩ <;> have hscan := hrun [] <;> rw [hnil] at hscan <;>
    rw [hscan]
  · have hstop := stateAfter_resolve_atEnd (⟨[], n + cs.length, Bool.true⟩ : Cursor)
      ⟨[], n + cs.length, Bool.false⟩ t.atEnd
    rcases hstop with hstop | hstop <;> exact ⟨cs, [], _, (List.append_nil cs).symm, hstop⟩
  · rw [hnil]
    exact ⟨used, left, q, hcs, rfl⟩
  · rw [hnil]
    exact ⟨used, left, q, hcs, rfl⟩

/-- A token of a text ends at the place that its cursor tells. -/
theorem exists_split_of_scan {tok : Token} {cur : Cursor}
    (h : scan ⟨Answer.chars cs, n, peeked⟩ = .ok tok cur) :
    ∃ used left q, cs = used ++ left ∧ cur = ⟨Answer.chars left, n + used.length, q⟩ := by
  obtain ⟨used, left, q, hcs, hstop⟩ := exists_split_of_stateAfter cs n peeked
  rw [h] at hstop
  exact ⟨used, left, q, hcs, hstop⟩

end Token

end JsonDoc
