import JsonDoc.Proofs.Document.Run
import JsonDoc.Proofs.Dump.Layout
import JsonDoc.Proofs.Token.Lexer

/-!
# What a lexer takes from a text

A lexer has asked for the characters that it has used and for one more at most, after every scan
and wherever reading a document stops (`Lexer.IsWithin`).  The characters of a token are blanks and
a lexeme that is the same token by itself (`Lexer.scan_text`).
-/

namespace JsonDoc

open CharSource

namespace ReadState

variable {σ : Type} [CharSource σ] {options : ReadOptions} {s s' : ReadState} {l next : Lexer σ}
  {cur : Cursor} {tok : Token} {cause : Cause}

/-! ### Reading documents with a lexer -/

theorem runLexer_of_scan_error (h : Lexer.scan l = .error cause next) :
    s.runLexer options l = .error cause next := by
  rw [runLexer]
  split <;> rename_i h' <;> rw [h] at h' <;> cases h'
  rfl

theorem runLexer_of_scan_end (h : Lexer.scan l = .ok .endOfInput next) :
    s.runLexer options l =
      match s.atEnd with
      | .ok v => .ok v next
      | .error cause => .error cause next := by
  rw [runLexer]
  split <;> rename_i h' <;> rw [h] at h' <;> cases h'
  refine (dif_pos rfl).trans ?_
  cases s.atEnd <;> rfl

theorem runLexer_of_scan (h : Lexer.scan l = .ok tok next) (ht : tok ≠ .endOfInput) :
    s.runLexer options l =
      match s.step options tok with
      | .ok s' => s'.runLexer options next
      | .error cause => .error cause next := by
  rw [runLexer]
  split <;> rename_i h' <;> rw [h] at h' <;> cases h'
  rw [dif_neg ht]
  cases s.step options tok <;> rfl

/-- A document is the same from a lexer as from the answers. -/
theorem resultsMatch_runLexer (h : l.Shows cur) (options : ReadOptions) (s : ReadState) :
    ResultsMatch Lexer.Shows (s.runLexer options l) (s.run options cur) := by
  induction hsize : l.size using Nat.strong_induction_on generalizing s l cur with
  | _ size ih =>
  subst hsize
  have hmatch := h.scan
  cases hscan : Lexer.scan l with
  | error cause next =>
    rw [hscan] at hmatch
    obtain ⟨fin, hcur, hnext⟩ := hmatch.exists_of_error_left
    rw [runLexer_of_scan_error hscan, run_of_scan_error hcur]
    exact .error cause hnext
  | ok tok next =>
    rw [hscan] at hmatch
    obtain ⟨fin, hcur, hnext⟩ := hmatch.exists_of_ok_left
    by_cases htok : tok = .endOfInput
    · subst htok
      rw [runLexer_of_scan_end hscan, run_of_scan_end hcur]
      rcases s.atEnd with cause | v
      · exact .error cause hnext
      · exact .ok v hnext
    · rw [runLexer_of_scan hscan htok, run_of_scan hcur htok]
      rcases s.step options tok with cause | s'
      · exact .error cause hnext
      · exact ih _ (Lexer.size_scan_lt hscan htok) hnext s' rfl

/-- What every scan keeps is kept up to where reading a document stops. -/
theorem stateAfter_runLexer {P : Lexer σ → Prop}
    (hscan : ∀ l, P l → P (stateAfter (Lexer.scan l))) (h : P l) :
    P (stateAfter (s.runLexer options l)) := by
  induction hsize : l.size using Nat.strong_induction_on generalizing s l with
  | _ size ih =>
  subst hsize
  have hnext := hscan l h
  cases hl : Lexer.scan l with
  | error cause next =>
    rw [hl] at hnext
    rw [runLexer_of_scan_error hl]
    exact hnext
  | ok tok next =>
    rw [hl] at hnext
    by_cases htok : tok = .endOfInput
    · subst htok
      rw [runLexer_of_scan_end hl]
      rcases s.atEnd with cause | v <;> exact hnext
    · rw [runLexer_of_scan hl htok]
      rcases s.step options tok with cause | s'
      · exact hnext
      · exact ih _ (Lexer.size_scan_lt hl htok) hnext rfl

end ReadState

/-- A document in a source is the same when a lexer reads it. -/
theorem Document.resultLexer_readLexer {σ : Type} [CharSource σ] (options : ReadOptions) (s : σ) :
    resultLexer (readLexer options s) = parseSource options s := by
  have hmatch := ReadState.resultsMatch_runLexer (Lexer.shows_new s) options .start
  unfold readLexer parseSource read
  generalize ReadState.start.runLexer options (Lexer.new s) = left at hmatch
  generalize ReadState.start.run options (.start (answers s)) = right at hmatch
  obtain ⟨v, -⟩ | ⟨cause, hshows⟩ := hmatch
  · rfl
  · rw [resultLexer, result, hshows.offset_eq]

/-- What is scanned is a token by itself behind blanks, and nothing is left where it is the end. -/
theorem ScansTo.exists_lexeme {u v : List Char} {tok : Token} (h : ScansTo u tok v) :
    ∃ blanks lexeme, IsBlanks blanks ∧ u = blanks ++ (lexeme ++ v) ∧ ScansTo lexeme tok [] ∧
      (lexeme = [] ↔ tok = .endOfInput) ∧ (tok = .endOfInput → v = []) := by
  cases h with
  | endOfInput hw =>
    exact ⟨u, [], hw, by simp, .endOfInput isBlanks_nil, by simp, fun _ => rfl⟩
  | @token w t u tok hw ht =>
    have hne : tok ≠ .endOfInput := by
      rintro rfl
      cases ht
    have halone := ScansTo.token (u := []) isBlanks_nil ht
    rw [List.nil_append, List.append_nil] at halone
    have hpos : t ≠ [] := by
      rintro rfl
      cases ht
    exact ⟨w, t, hw, rfl, halone, by simp [hne, hpos], fun h => absurd h hne⟩
  | @number w u l tok hw hu ht =>
    have hne := NumberLiteral.token_ne_endOfInput ht
    have halone := ScansTo.number (u := []) isBlanks_nil (delimited_nil.endsBefore l) ht
    rw [List.nil_append, List.append_nil] at halone
    have hpos := List.ne_nil_of_length_pos l.length_text_pos
    exact ⟨w, l.text, hw, rfl, halone, by simp [hne, hpos], fun h => absurd h hne⟩

namespace Lexer

/-! ### Texts -/

/-- A lexer over a text has asked for the characters that it has used, and for one more at most. -/
def IsWithin (t : List Char) (l : Lexer (List Char)) : Prop :=
  ∃ m, (m = l.offset ∨ m = l.offset + 1) ∧ m ≤ t.length ∧ l.source = t.drop m

/-- The characters are the token by themselves, up to their end. -/
def ReadsAlone (lexeme : List Char) (tok : Token) : Prop :=
  ∃ l, scan (new lexeme) = .ok tok l ∧ ∃ fin, scan l = .ok .endOfInput fin

/-- A lexer is at a place in a text. -/
def IsAt (t used left : List Char) (l : Lexer (List Char)) : Prop :=
  t = used ++ left ∧ ∃ peeked, Shows l ⟨Answer.chars left, used.length, peeked⟩

variable {t used left lexeme : List Char} {l l' : Lexer (List Char)} {tok : Token}

theorem isAt_new (t : List Char) : IsAt t [] t (new t) := by
  have hshows := shows_new t
  rw [answers_chars] at hshows
  exact ⟨rfl, false, hshows⟩

theorem IsAt.offset_eq (h : IsAt t used left l) : l.offset = used.length := by
  obtain ⟨-, peeked, hshows⟩ := h
  exact hshows.offset_eq.symm

/-- A lexer at a place has asked for what is used, and has one character ahead at most. -/
theorem IsAt.isWithin (h : IsAt t used left l) : IsWithin t l := by
  obtain ⟨rfl, peeked, hshows⟩ := h
  obtain ⟨s, ahead, n⟩ := l
  have hn : n = used.length := hshows.offset_eq.symm
  rcases ahead with _ | _ | c
  · have hleft : left = s := by
      rw [← Answer.chars_injective.eq_iff, ← answers_chars s]
      exact hshows.pending_fresh
    exact ⟨n, Or.inl rfl, by simp [hn], by simp [hn, hleft]⟩
  · obtain ⟨rest, hpending⟩ | ⟨hpending, hs⟩ := hshows.pending_ended
    · rcases left with _ | ⟨d, left⟩ <;> cases hpending
    · have hleft : left = [] := Answer.chars_injective hpending
      exact ⟨n, Or.inl rfl, by simp [hn], by simp [hn, hleft, List.isEmpty_iff.mp hs]⟩
  · have hleft : left = c :: s := by
      rw [← Answer.chars_injective.eq_iff, Answer.chars_cons, ← answers_chars s]
      exact hshows.pending_char
    exact ⟨n + 1, Or.inr rfl, by simp [hn, hleft], by simp [hn, hleft, List.drop_append]⟩

/-- A scan uses characters of the text, whatever it comes to. -/
theorem IsAt.stateAfter_scan (h : IsAt t used left l) :
    ∃ more left', IsAt t (used ++ more) left' (stateAfter (scan l)) := by
  obtain ⟨rfl, peeked, hshows⟩ := h
  obtain ⟨more, left', q, rfl, hcur⟩ := Token.exists_split_of_stateAfter left used.length peeked
  have hnext := hshows.scan.stateAfter
  rw [hcur, ← List.length_append] at hnext
  exact ⟨more, left', (List.append_assoc _ _ _).symm, q, hnext⟩

theorem exists_isAt_stateAfter_scan (h : ∃ used left, IsAt t used left l) :
    ∃ used left, IsAt t used left (stateAfter (scan l)) := by
  obtain ⟨used, left, h⟩ := h
  obtain ⟨more, left', h'⟩ := h.stateAfter_scan
  exact ⟨_, left', h'⟩

theorem exists_isAt_after (t : List Char) (n : ℕ) :
    ∃ used left, IsAt t used left (after n (new t)) := by
  induction n with
  | zero => exact ⟨[], t, isAt_new t⟩
  | succ n ih => exact exists_isAt_stateAfter_scan ih

theorem exists_isAt_readLexer (t : List Char) (options : ReadOptions) :
    ∃ used left, IsAt t used left (stateAfter (Document.readLexer options t)) :=
  ReadState.stateAfter_runLexer (P := fun l => ∃ used left, IsAt t used left l)
    (fun _ => exists_isAt_stateAfter_scan) ⟨[], t, isAt_new t⟩

/-- A token is read by itself from the characters that it is spelled with. -/
theorem readsAlone_of_scansTo (h : ScansTo lexeme tok []) : ReadsAlone lexeme tok := by
  obtain ⟨m, q, hscan⟩ := h.exists_scan 0 false
  have hmatch := (shows_new lexeme).scan
  rw [answers_chars, Cursor.start, hscan] at hmatch
  obtain ⟨l, hl, hshows⟩ := hmatch.exists_of_ok_right
  have hend : Token.scan ⟨Answer.chars [], m, q⟩ = .ok .endOfInput ⟨[], m, false⟩ := rfl
  have hmatch := hshows.scan
  rw [hend] at hmatch
  obtain ⟨fin, hfin, -⟩ := hmatch.exists_of_ok_right
  exact ⟨l, hl, fin, hfin⟩

/-- The characters of a token are blanks and the token by itself. -/
theorem IsAt.exists_lexeme (h : IsAt t used left l) (hscan : scan l = .ok tok l') :
    ∃ blanks lexeme left', IsBlanks blanks ∧ left = blanks ++ (lexeme ++ left') ∧
      IsAt t (used ++ (blanks ++ lexeme)) left' l' ∧ ReadsAlone lexeme tok ∧
      (lexeme = [] ↔ tok = .endOfInput) ∧ (tok = .endOfInput → left' = []) := by
  obtain ⟨rfl, peeked, hshows⟩ := h
  have hmatch := hshows.scan
  rw [hscan] at hmatch
  obtain ⟨cur, hcur, hnext⟩ := hmatch.exists_of_ok_left
  obtain ⟨v, m, q, rfl, hscans⟩ := exists_scansTo hcur
  obtain ⟨more, left', q', hleft, hsplit⟩ := Token.exists_split_of_scan hcur
  obtain ⟨hv, rfl, rfl⟩ := Cursor.mk.inj hsplit
  obtain rfl := Answer.chars_injective hv
  obtain ⟨blanks, lexeme, hblanks, hspelled, halone, hempty, hend⟩ := hscans.exists_lexeme
  have hmore : more = blanks ++ lexeme := by
    rw [← List.append_assoc, hleft] at hspelled
    exact List.append_cancel_right hspelled
  subst hmore
  refine ⟨blanks, lexeme, v, hblanks, hspelled, ⟨?_, q, ?_⟩, readsAlone_of_scansTo halone, hempty,
    hend⟩
  · rw [hleft]
    simp only [List.append_assoc]
  · rwa [List.length_append]

/-- A lexer neither loses nor repeats characters of a text.  After each of any number of scans,
whatever they come to, it has asked for the characters that it has used and one more at most, and
has used no fewer than before.  The characters that a token has used are blanks and then a lexeme
that is the same token by itself and empty for the end of the input alone, which is found at the end
of the text.  Where reading the document stops, the lexer leaves the text in the same way, and the
error, if there is one, is at its offset. -/
theorem scan_text (t : List Char) :
    (∀ n, IsWithin t (after n (new t)) ∧
      (after n (new t)).offset ≤ (after (n + 1) (new t)).offset ∧
      ∀ tok l, scan (after n (new t)) = .ok tok l →
        ∃ blanks lexeme, IsBlanks blanks ∧
          (t.drop (after n (new t)).offset).take (l.offset - (after n (new t)).offset) =
            blanks ++ lexeme ∧
          ReadsAlone lexeme tok ∧ (lexeme = [] ↔ tok = .endOfInput) ∧
          (tok = .endOfInput → l.offset = t.length)) ∧
    ∀ options, IsWithin t (stateAfter (Document.readLexer options t)) ∧
      ∀ e, Document.parseSource options t = .error e →
        e.offset = (stateAfter (Document.readLexer options t)).offset := by
  refine ⟨fun n => ?_, fun options => ⟨?_, fun e he => ?_⟩⟩
  · obtain ⟨used, left, h⟩ := exists_isAt_after t n
    obtain ⟨more, left', h'⟩ := h.stateAfter_scan
    refine ⟨h.isWithin, ?_, fun tok l hscan => ?_⟩
    · rw [after, h.offset_eq, h'.offset_eq, List.length_append]
      omega
    · obtain ⟨blanks, lexeme, v, hblanks, hleft, hl, halone, hempty, hend⟩ := h.exists_lexeme hscan
      refine ⟨blanks, lexeme, hblanks, ?_, halone, hempty, fun htok => ?_⟩
      · have hdrop : t.drop used.length = left := by rw [h.1, List.drop_left]
        have hlen : (used ++ (blanks ++ lexeme)).length - used.length =
            (blanks ++ lexeme).length := by
          rw [List.length_append]
          omega
        rw [h.offset_eq, hl.offset_eq, hdrop, hlen, hleft, ← List.append_assoc, List.take_left]
      · rw [hl.offset_eq, hl.1, hend htok, List.append_nil]
  · obtain ⟨used, left, h⟩ := exists_isAt_readLexer t options
    exact h.isWithin
  · rw [← Document.resultLexer_readLexer] at he
    generalize Document.readLexer options t = result at he ⊢
    rcases result with ⟨v, l⟩ | ⟨cause, l⟩
    · cases he
    · cases he
      rfl

-- the blank that ends the number has been asked for and is not used
example : after 2 (new " [12 ]".toList) = ⟨[']'], some (some ' '), 4⟩ := by decide +kernel

end Lexer

end JsonDoc
