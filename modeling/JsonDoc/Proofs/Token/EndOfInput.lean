import JsonDoc.Proofs.Token.Lexer

/-!
# The end of the input

A scan finds the end of the input behind blanks, where the source answers that it has ended
(`exists_blanks_of_scan_endOfInput`), and the answer is used up with it.  So whether later scans
find the end again is for the source to say (`Lexer.endOfInput_iff`): a source that goes on after an
end is read on.
-/

namespace JsonDoc

open CharSource TokenState

/-! ### Where the end is found -/

/-- Answers are characters up to their end, or up to another answer. -/
theorem Answer.exists_chars_append (answers : List Answer) :
    ∃ cs rest, answers = Answer.chars cs ++ rest ∧
      (rest = [] ∨ (∃ more, rest = .ended :: more) ∨ ∃ e more, rest = .failed e :: more) := by
  induction answers with
  | nil => exact ⟨[], [], rfl, Or.inl rfl⟩
  | cons a answers ih =>
    match a with
    | .ended => exact ⟨[], _, rfl, Or.inr (Or.inl ⟨answers, rfl⟩)⟩
    | .failed e => exact ⟨[], _, rfl, Or.inr (Or.inr ⟨e, answers, rfl⟩)⟩
    | .char c =>
      obtain ⟨cs, rest, rfl, hrest⟩ := ih
      exact ⟨c :: cs, rest, rfl, hrest⟩

/-- What the end of the input completes, it completes at every place. -/
theorem TokenState.exists_of_resolve_atEnd {κ : Type} {here next fin : κ} {m : Move Empty}
    {tok : Token} (h : resolve here next Empty.elim m = .ok tok fin) (here' next' : κ) :
    ∃ fin', resolve here' next' Empty.elim m = .ok tok fin' := by
  rcases m with e | tok' | tok' | cause | cause
  · exact e.elim
  · cases h
    exact ⟨next', rfl⟩
  · cases h
    exact ⟨here', rfl⟩
  · cases h
  · cases h

/-- The end of the input is found behind blanks, at the end of the answers or where the source has
ended. -/
theorem exists_blanks_of_scan_endOfInput {cur fin : Cursor}
    (h : Token.scan cur = .ok .endOfInput fin) :
    ∃ cs, IsBlanks cs ∧
      (cur.pending = Answer.chars cs ∧ fin = ⟨[], cur.offset + cs.length, false⟩ ∨
        ∃ rest, cur.pending = Answer.chars cs ++ .ended :: rest ∧
          fin = ⟨rest, cur.offset + cs.length, false⟩) := by
  obtain ⟨pending, n, peeked⟩ := cur
  obtain ⟨cs, rest, rfl, hrest⟩ := Answer.exists_chars_append pending
  have hblanks : IsBlanks cs := by
    rcases Token.scan_append cs n peeked with ⟨t, hrun⟩ | ⟨tok, used, left, q, htok, -, -, hrun⟩ |
      ⟨cause, used, left, q, -, hrun⟩
    · -- the state behind the characters ends in the same way where the answers end
      have hend : ∃ fin', t.run [] (n + cs.length) = .ok .endOfInput fin' := by
        rw [hrun] at h
        obtain rfl | ⟨more, rfl⟩ | ⟨e, more, rfl⟩ := hrest
        · exact ⟨fin, h⟩
        · exact exists_of_resolve_atEnd h _ _
        · cases h
      obtain ⟨fin', hend⟩ := hend
      rw [← hrun, List.append_nil] at hend
      obtain ⟨v, m, q, -, hscans⟩ := exists_scansTo hend
      exact hscans.of_endOfInput.1
    · rw [hrun] at h
      cases h
      exact absurd rfl htok
    · rw [hrun] at h
      cases h
  refine ⟨cs, hblanks, ?_⟩
  change blank.run (Answer.chars cs ++ rest) n = _ at h
  rw [run_blanks hblanks] at h
  obtain rfl | ⟨more, rfl⟩ | ⟨e, more, rfl⟩ := hrest
  · cases h
    exact Or.inl ⟨List.append_nil _, rfl⟩
  · cases h
    exact Or.inr ⟨more, rfl, rfl⟩
  · cases h

/-! ### Where it is found again -/

namespace Lexer

variable {σ : Type} [CharSource σ] {l l' : Lexer σ} {s : σ} {n : ℕ}

/-- The end of the input has been used with the token, so that the source is asked again. -/
theorem peeked_of_scan_endOfInput (h : scan l = .ok .endOfInput l') : l'.peeked = none := by
  obtain ⟨cur, hshows⟩ := exists_shows l
  have hmatch := hshows.scan
  rw [h] at hmatch
  obtain ⟨fin, hscan, hfin⟩ := hmatch.exists_of_ok_left
  have hpeeked := hfin.peeked_eq
  obtain ⟨cs, -, ⟨-, rfl⟩ | ⟨rest, -, rfl⟩⟩ := exists_blanks_of_scan_endOfInput hscan
  · exact Option.not_isSome_iff_eq_none.mp (by simp [← hpeeked])
  · exact Option.not_isSome_iff_eq_none.mp (by simp [← hpeeked])

/-- A source that has ended ends the input, and nothing is used. -/
theorem scan_of_ended (h : next s = .ended) :
    scan (⟨s, none, n⟩ : Lexer σ) = .ok .endOfInput ⟨rest s, none, n⟩ := by
  have hpeek : peek (⟨s, none, n⟩ : Lexer σ) = .ok none ⟨rest s, some none, n⟩ := by
    unfold next at h
    unfold rest
    simp only [peek]
    generalize nextChar s = result at h
    rcases result with ⟨_ | c, t⟩ | ⟨e, t⟩
    · rfl
    · cases h
    · cases h
  unfold scan
  rw [scanFrom_of_end hpeek]
  rfl

/-- The end of the input is found at once only where the source has ended. -/
theorem ended_of_scan_endOfInput (h : scan (⟨s, none, n⟩ : Lexer σ) = .ok .endOfInput l')
    (hoffset : l'.offset = n) : next s = .ended := by
  have hmatch := (Shows.fresh s n).scan
  rw [h] at hmatch
  obtain ⟨fin, hscan, hfin⟩ := hmatch.exists_of_ok_left
  have heq := hfin.offset_eq
  have hstay : ∀ cs : List Char, fin.offset = n + cs.length → cs = [] := by
    intro cs hcs
    exact List.length_eq_zero_iff.mp (by omega)
  obtain ⟨cs, -, ⟨hanswers, rfl⟩ | ⟨more, hanswers, rfl⟩⟩ :=
    exists_blanks_of_scan_endOfInput hscan
  · obtain rfl := hstay cs rfl
    exact next_of_answers_nil hanswers
  · obtain rfl := hstay cs rfl
    exact next_of_answers_cons hanswers

/-- While the source ends, a scan takes one answer of it and nothing else changes. -/
theorem after_of_ended {k : ℕ} (h : ∀ j < k, next (advance j s) = .ended) :
    after k (⟨s, none, n⟩ : Lexer σ) = ⟨advance k s, none, n⟩ := by
  induction k with
  | zero => rfl
  | succ k ih =>
    have hbefore := ih fun j hj => h j (Nat.lt_succ_of_lt hj)
    rw [after, hbefore, scan_of_ended (h k (Nat.lt_succ_self k)), advance_succ]
    rfl

/-- Once the end of the input has been found, later scans find it again at the same place exactly
if the source goes on answering that it has ended. -/
theorem endOfInput_iff (h : scan l = .ok .endOfInput l') :
    (∀ k, ∃ fin, scan (after k l') = .ok .endOfInput fin ∧ fin.offset = l'.offset) ↔
      ∀ k, next (advance k l'.source) = .ended := by
  obtain ⟨s, peeked, n⟩ := l'
  obtain rfl : peeked = none := peeked_of_scan_endOfInput h
  constructor
  · intro hfinal k
    induction k using Nat.strong_induction_on with
    | _ k ih =>
    obtain ⟨fin, hscan, hoffset⟩ := hfinal k
    rw [after_of_ended ih] at hscan
    exact ended_of_scan_endOfInput hscan hoffset
  · intro hended k
    rw [after_of_ended fun j _ => hended j]
    exact ⟨_, scan_of_ended (hended k), rfl⟩

/-- A reader that gives a byte after a read of nothing is read on behind the end. -/
theorem endOfInput_iff_byteBehindEnd :
    scan (new (⟨[.nothing, .byte 0x31]⟩ : RetryingReader)) =
        .ok .endOfInput ⟨⟨[.byte 0x31]⟩, none, 0⟩ ∧
      ¬ ∀ k, ∃ fin, scan (after k (⟨⟨[.byte 0x31]⟩, none, 0⟩ : Lexer RetryingReader)) =
        .ok .endOfInput fin ∧ fin.offset = 0 := by
  have hscan : scan (new (⟨[.nothing, .byte 0x31]⟩ : RetryingReader)) =
      .ok .endOfInput ⟨⟨[.byte 0x31]⟩, none, 0⟩ := scan_of_ended rfl
  refine ⟨hscan, fun hfinal => ?_⟩
  have hended := (endOfInput_iff hscan).mp hfinal 0
  exact absurd hended (by decide)

end Lexer

end JsonDoc
