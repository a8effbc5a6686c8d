import JsonDoc.Proofs.Source.Match
import JsonDoc.Proofs.Token.Extent
import JsonDoc.Document.Read

/-!
# Lexers and cursors

A lexer asks its source for what it needs and no more, where a cursor has all the answers of the
source before it.  Both read the same: a lexer shows a cursor (`Lexer.Shows`) if the answers that
are pending are what it has ahead and what its source will answer, and every token keeps this.
-/

namespace JsonDoc.Lexer

open CharSource TokenState

variable {σ : Type} [CharSource σ] {l l' : Lexer σ} {cur : Cursor} {cause : Cause}
  {next : Option Char} {c : Char} {s : σ} {n : ℕ}

/-- The answers that are pending at a cursor are those that a lexer is still to use. -/
inductive Shows : Lexer σ → Cursor → Prop
  | fresh (s : σ) (n : ℕ) : Shows ⟨s, none, n⟩ ⟨answers s, n, false⟩
  | char (c : Char) (s : σ) (n : ℕ) : Shows ⟨s, some (some c), n⟩ ⟨.char c :: answers s, n, true⟩
  | ended (s : σ) (n : ℕ) : Shows ⟨s, some none, n⟩ ⟨.ended :: answers s, n, true⟩
  /-- A source that has nothing left has no answer for its end. -/
  | exhausted (s : σ) (n : ℕ) (h : isEmpty s = true) : Shows ⟨s, some none, n⟩ ⟨[], n, true⟩

theorem shows_new (s : σ) : Shows (new s) (.start (answers s)) := .fresh s 0

theorem Shows.offset_eq (h : Shows l cur) : cur.offset = l.offset := by
  cases h <;> rfl

theorem Shows.peeked_eq (h : Shows l cur) : cur.peeked = l.peeked.isSome := by
  cases h <;> rfl

theorem Shows.pending_fresh (h : Shows ⟨s, none, n⟩ cur) : cur.pending = answers s := by
  cases h
  rfl

theorem Shows.pending_char (h : Shows ⟨s, some (some c), n⟩ cur) :
    cur.pending = .char c :: answers s := by
  cases h
  rfl

theorem Shows.pending_ended (h : Shows ⟨s, some none, n⟩ cur) :
    (∃ rest, cur.pending = .ended :: rest) ∨ cur.pending = [] ∧ isEmpty s = true := by
  cases h with
  | ended => exact Or.inl ⟨_, rfl⟩
  | exhausted _ _ h => exact Or.inr ⟨rfl, h⟩

/-- What one look ahead comes to, in terms of the answers that are pending. -/
inductive Peeks (cur : Cursor) : EStateM.Result Cause (Lexer σ) (Option Char) → Prop
  | char {c : Char} {rest : List Answer} {l : Lexer σ} (hpending : cur.pending = .char c :: rest)
      (hhere : Shows l ⟨.char c :: rest, cur.offset, true⟩)
      (hnext : Shows l.bump ⟨rest, cur.offset + 1, false⟩) : Peeks cur (.ok (some c) l)
  | ended {rest : List Answer} {l : Lexer σ} (hpending : cur.pending = .ended :: rest)
      (hhere : Shows l ⟨.ended :: rest, cur.offset, true⟩)
      (hnext : Shows l.bump ⟨rest, cur.offset, false⟩) : Peeks cur (.ok none l)
  | exhausted {l : Lexer σ} (hpending : cur.pending = []) (hhere : Shows l ⟨[], cur.offset, true⟩)
      (hnext : Shows l.bump ⟨[], cur.offset, false⟩) : Peeks cur (.ok none l)
  | failed {e : SourceError} {rest : List Answer} {l : Lexer σ}
      (hpending : cur.pending = .failed e :: rest) (hnext : Shows l ⟨rest, cur.offset, false⟩) :
      Peeks cur (.error (.source e) l)

theorem shows_bump_exhausted (h : isEmpty s = true) :
    Shows (⟨s, some none, n⟩ : Lexer σ).bump ⟨[], n, false⟩ := by
  rw [← answers_of_empty h]
  exact .fresh s n

theorem Shows.peeks (h : Shows l cur) : Peeks cur (peek l) := by
  rcases h with ⟨s, n⟩ | ⟨c, s, n⟩ | ⟨s, n⟩ | ⟨s, n, hs⟩
  · cases hempty : isEmpty s with
    | true =>
      have hpeek : peek (⟨s, none, n⟩ : Lexer σ) = .ok none ⟨s, some none, n⟩ := by
        simp only [peek, CharSource.ended s hempty]
      rw [hpeek]
      exact .exhausted (answers_of_empty hempty) (.exhausted s n hempty) (shows_bump_exhausted hempty)
    | false =>
      have hanswers := answers_of_next hempty
      unfold next rest at hanswers
      simp only [peek]
      generalize nextChar s = result at hanswers
      rcases result with ⟨_ | c, t⟩ | ⟨e, t⟩
      · exact .ended hanswers (.ended t n) (.fresh t n)
      · exact .char hanswers (.char c t n) (.fresh t (n + 1))
      · exact .failed hanswers (.fresh t n)
  · exact .char rfl (.char c s n) (.fresh s (n + 1))
  · exact .ended rfl (.ended s n) (.fresh s n)
  · exact .exhausted rfl (.exhausted s n hs) (shows_bump_exhausted hs)

/-- A move between places that show each other has the same outcome. -/
theorem resultsMatch_resolve {α : Type} {here next : Lexer σ} {here' next' : Cursor}
    {go : α → EStateM.Result Cause (Lexer σ) Token} {go' : α → EStateM.Result Cause Cursor Token}
    (hhere : Shows here here') (hnext : Shows next next')
    (hgo : ∀ a, ResultsMatch Shows (go a) (go' a)) (m : Move α) :
    ResultsMatch Shows (resolve here next go m) (resolve here' next' go' m) := by
  cases m with
  | shift a => exact hgo a
  | accept t => exact .ok t hnext
  | acceptBefore t => exact .ok t hhere
  | reject cause => exact .error cause hnext
  | rejectBefore cause => exact .error cause hhere

/-- The rest of a token is the same from a lexer as from the answers. -/
theorem Shows.scanFrom (h : Shows l cur) (s : TokenState) :
    ResultsMatch Shows (scanFrom s l) (s.run cur.pending cur.offset) := by
  induction hsize : l.size using Nat.strong_induction_on generalizing s l cur with
  | _ size ih =>
  subst hsize
  have hpeeks := h.peeks
  cases hpeek : peek l with
  | error cause here =>
    rw [hpeek] at hpeeks
    obtain - | - | - | ⟨hpending, hnext⟩ := hpeeks
    rw [scanFrom_of_error hpeek, hpending]
    exact .error _ hnext
  | ok ahead here =>
    rw [hpeek] at hpeeks
    obtain ⟨hpending, hhere, hnext⟩ | ⟨hpending, hhere, hnext⟩ | ⟨hpending, hhere, hnext⟩ | - :=
      hpeeks
    · rw [scanFrom_of_char hpeek, hpending]
      exact resultsMatch_resolve hhere hnext (fun t => ih _ (size_bump_lt hpeek) hnext t rfl) _
    · rw [scanFrom_of_end hpeek, hpending]
      exact resultsMatch_resolve hhere hnext (fun e => e.elim) _
    · rw [scanFrom_of_end hpeek, hpending]
      exact resultsMatch_resolve hhere hnext (fun e => e.elim) _

/-- The next token is the same from a lexer as from the answers. -/
theorem Shows.scan (h : Shows l cur) : ResultsMatch Shows (scan l) (Token.scan cur) :=
  h.scanFrom .blank

/-! ### One scan after another -/

/-- The lexer after a count of scans, whatever they come to. -/
def after : ℕ → Lexer σ → Lexer σ
  | 0, l => l
  | n + 1, l => stateAfter (scan (after n l))

/-- Every lexer shows a cursor. -/
theorem exists_shows (l : Lexer σ) : ∃ cur, Shows l cur := by
  obtain ⟨s, _ | _ | c, n⟩ := l
  · exact ⟨_, .fresh s n⟩
  · exact ⟨_, .ended s n⟩
  · exact ⟨_, .char c s n⟩

end JsonDoc.Lexer
