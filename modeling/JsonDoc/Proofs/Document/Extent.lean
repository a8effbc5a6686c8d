import JsonDoc.Proofs.Document.Depth

/-!
# How far an error reaches

Reading characters either uses all of them, whatever follows, or comes to an error that stands
whatever follows (`ReadState.run_append`).  So the error of a text depends on the characters that
have been used and at most one more, and only the end of the text is reported as its end
(`Document.parseSource_error`).
-/

namespace JsonDoc

/-! ### Offsets -/

namespace TokenState

theorem offset_le_run (s : TokenState) (answers : List Answer) (n : ℕ) :
    n ≤ (stateAfter (s.run answers n)).offset := by
  induction answers generalizing s n with
  | nil =>
    rcases stateAfter_resolve_atEnd (⟨[], n, true⟩ : Cursor) ⟨[], n, false⟩ s.atEnd with h | h <;>
      rw [run, h]
  | cons a rest ih =>
    cases a with
    | ended =>
      rcases stateAfter_resolve_atEnd (⟨.ended :: rest, n, true⟩ : Cursor) ⟨rest, n, false⟩
        s.atEnd with h | h <;> rw [run, h]
    | failed e => exact le_rfl
    | char c =>
      rw [run]
      cases s.step c with
      | shift t => exact (Nat.le_succ n).trans (ih t (n + 1))
      | accept | reject => exact Nat.le_succ n
      | acceptBefore | rejectBefore => exact le_rfl

end TokenState

namespace ReadState

variable {options : ReadOptions} {s s' : ReadState} {cs : List Char} {n : ℕ} {peeked : Bool}
  {cur : Cursor} {x y : ReadState × Cursor} {e : ParseError}

/-- A run reaches at least as far as its first token. -/
theorem offset_scan_le_run (options : ReadOptions) (s : ReadState) (cur : Cursor) :
    (stateAfter (Token.scan cur)).offset ≤ (stateAfter (s.run options cur)).offset := by
  induction hlen : cur.pending.length using Nat.strong_induction_on generalizing s cur with
  | _ len ih =>
  subst hlen
  cases hscan : Token.scan cur with
  | error cause next =>
    rw [run_of_scan_error hscan]
    exact le_rfl
  | ok tok next =>
    by_cases htok : tok = .endOfInput
    · subst htok
      rw [run_of_scan_end hscan]
      cases s.atEnd <;> exact le_rfl
    · rw [run_of_scan hscan htok]
      cases s.step options tok with
      | error cause => exact le_rfl
      | ok s' =>
        have hnext : next.offset ≤ (stateAfter (Token.scan next)).offset :=
          TokenState.offset_le_run _ _ _
        exact hnext.trans (ih _ (Token.length_pending_scan_lt hscan htok) s' next rfl)

/-- Where nothing is left the input ends. -/
theorem run_nil (options : ReadOptions) (s : ReadState) (n : ℕ) (peeked : Bool) :
    s.run options ⟨[], n, peeked⟩ =
      match s.atEnd with
      | .ok v => .ok v ⟨[], n, false⟩
      | .error cause => .error cause ⟨[], n, false⟩ :=
  run_of_scan_end rfl

/-- What a state comes to where the input ends within a token. -/
def finish (options : ReadOptions) (s : ReadState) (t : TokenState) : Except Cause Value :=
  match t.atEnd with
  | .shift e => e.elim
  | .accept tok | .acceptBefore tok =>
    if tok = .endOfInput then s.atEnd
    else
      match s.step options tok with
      | .ok s' => s'.atEnd
      | .error cause => .error cause
  | .reject cause | .rejectBefore cause => .error cause

/-- A run whose next token is left unfinished by the end of the input. -/
theorem result_run_of_scan {t : TokenState} (h : Token.scan cur = t.run [] n) :
    Document.result (s.run options cur) =
      (s.finish options t).mapError fun cause => ⟨cause, n⟩ := by
  have hfinish : ∀ tok p, Token.scan cur = .ok tok ⟨[], n, p⟩ →
      Document.result (s.run options cur) = Except.mapError (fun cause => ⟨cause, n⟩)
        (if tok = .endOfInput then s.atEnd
        else
          match s.step options tok with
          | .ok s' => s'.atEnd
          | .error cause => .error cause) := by
    intro tok p hscan
    by_cases htok : tok = .endOfInput
    · subst htok
      rw [run_of_scan_end hscan, if_pos rfl]
      cases s.atEnd <;> rfl
    · rw [run_of_scan hscan htok, if_neg htok]
      cases s.step options tok with
      | error cause => rfl
      | ok s' =>
        dsimp only
        rw [run_nil]
        cases s'.atEnd <;> rfl
  rw [TokenState.run] at h
  unfold finish
  cases hend : t.atEnd with
  | shift e => exact e.elim
  | accept tok | acceptBefore tok =>
    rw [hend] at h
    exact hfinish tok _ h
  | reject cause | rejectBefore cause =>
    rw [hend] at h
    rw [run_of_scan_error h]
    rfl

/-! ### Characters before other answers -/

theorem Advances.run_eq (h : Advances options x y) :
    x.1.run options x.2 = y.1.run options y.2 := by
  cases h with
  | mk hscan htok hstep => rw [run_of_scan hscan htok, hstep]

theorem run_eq_of_advances (h : Relation.ReflTransGen (Advances options) x y) :
    x.1.run options x.2 = y.1.run options y.2 := by
  induction h with
  | refl => rfl
  | tail _ hadv ih => rw [ih, hadv.run_eq]

/-- The characters are all used, whatever follows them: the run comes to a last token that they
leave unfinished. -/
structure UsesUp (options : ReadOptions) (s : ReadState) (cs : List Char) (n : ℕ) (peeked : Bool)
    (s' : ReadState) (used last : List Char) (q : Bool) (t : TokenState) : Prop where
  eq_append : cs = used ++ last
  advances : ∀ rest, Relation.ReflTransGen (Advances options)
    (s, ⟨Answer.chars cs ++ rest, n, peeked⟩)
    (s', ⟨Answer.chars last ++ rest, n + used.length, q⟩)
  scan_eq : ∀ rest, Token.scan ⟨Answer.chars last ++ rest, n + used.length, q⟩ =
    t.run rest (n + cs.length)

/-- The characters have an error other than their end, whatever follows them. -/
structure HasError (options : ReadOptions) (s : ReadState) (cs : List Char) (n : ℕ) (peeked : Bool)
    (e : ParseError) : Prop where
  cause_ne : e.cause ≠ .unexpectedEnd
  offset_le : e.offset ≤ n + cs.length
  result_eq : ∀ rest,
    Document.result (s.run options ⟨Answer.chars cs ++ rest, n, peeked⟩) = .error e

theorem step_ne_unexpectedEnd (options : ReadOptions) (s : ReadState) (tok : Token) :
    s.step options tok ≠ .error .unexpectedEnd := by
  have henter : ∀ place frames, enter options place frames ≠ .error .unexpectedEnd := by
    intro place frames
    unfold enter
    repeat' split
    all_goals nofun
  obtain ⟨place, frames⟩ := s
  cases place <;> cases tok <;> first | exact henter _ _ | nofun

section

variable {used used' last left : List Char} {q q' : Bool} {t : TokenState} {tok : Token}
  {cause : Cause}

/-- A scan that fails in characters, whatever follows them. -/
theorem hasError_of_scan (h : ∀ rest, Token.scan ⟨Answer.chars (used ++ left) ++ rest, n, peeked⟩ =
      .error cause ⟨Answer.chars left ++ rest, n + used.length, q⟩) :
    HasError options s (used ++ left) n peeked ⟨cause, n + used.length⟩ where
  cause_ne := by
    rintro rfl
    have hrun : TokenState.blank.run
        (Answer.chars (used ++ left) ++ [.failed .invalidUtf8]) n = _ := h _
    exact TokenState.run_failed_ne_unexpectedEnd _ _ _ _ _ hrun
  offset_le := by simp
  result_eq := by
    intro rest
    rw [run_of_scan_error (h rest)]
    rfl

/-- A token that is refused. -/
theorem hasError_of_step (h : ∀ rest, Token.scan ⟨Answer.chars (used ++ left) ++ rest, n, peeked⟩ =
      .ok tok ⟨Answer.chars left ++ rest, n + used.length, q⟩)
    (htok : tok ≠ .endOfInput) (hstep : s.step options tok = .error cause) :
    HasError options s (used ++ left) n peeked ⟨cause, n + used.length⟩ where
  cause_ne := by
    rintro rfl
    exact step_ne_unexpectedEnd options s tok hstep
  offset_le := by simp
  result_eq := by
    intro rest
    rw [run_of_scan (h rest) htok, hstep]
    rfl

variable (h : ∀ rest, Advances options (s, ⟨Answer.chars (used ++ left) ++ rest, n, peeked⟩)
  (s', ⟨Answer.chars left ++ rest, n + used.length, q⟩))

include h

theorem HasError.head (herror : HasError options s' left (n + used.length) q e) :
    HasError options s (used ++ left) n peeked e where
  cause_ne := herror.cause_ne
  offset_le := by
    have hle := herror.offset_le
    simp only [List.length_append]
    omega
  result_eq := by
    intro rest
    rw [(h rest).run_eq]
    exact herror.result_eq rest

theorem UsesUp.head {s₁ : ReadState}
    (huses : UsesUp options s' left (n + used.length) q s₁ used' last q' t) :
    UsesUp options s (used ++ left) n peeked s₁ (used ++ used') last q' t where
  eq_append := by rw [huses.eq_append, List.append_assoc]
  advances := by
    intro rest
    rw [List.length_append, ← Nat.add_assoc]
    exact .head (h rest) (huses.advances rest)
  scan_eq := by
    intro rest
    rw [List.length_append, List.length_append, ← Nat.add_assoc, ← Nat.add_assoc]
    exact huses.scan_eq rest

end

/-- Characters are all used, or have an error among them. -/
theorem run_append (options : ReadOptions) (s : ReadState) (cs : List Char) (n : ℕ)
    (peeked : Bool) :
    (∃ s' used last q t, UsesUp options s cs n peeked s' used last q t) ∨
      ∃ e, HasError options s cs n peeked e := by
  induction hlen : cs.length using Nat.strong_induction_on generalizing s cs n peeked with
  | _ len ih =>
  subst hlen
  rcases Token.scan_append cs n peeked with ⟨t, hscan⟩ |
    ⟨tok, used, left, q, htok, rfl, hused, hscan⟩ | ⟨cause, used, left, q, rfl, hscan⟩
  · exact Or.inl ⟨s, [], cs, peeked, t, rfl, fun rest => .refl, hscan⟩
  · cases hstep : s.step options tok with
    | error cause => exact Or.inr ⟨_, hasError_of_step hscan htok hstep⟩
    | ok s₁ =>
      have hlt : left.length < (used ++ left).length := by
        have hpos := List.length_pos_of_ne_nil hused
        rw [List.length_append]
        omega
      have hadv := fun rest => Advances.mk (hscan rest) htok hstep
      rcases ih _ hlt s₁ left (n + used.length) q rfl with
        ⟨s', used', last, q', t, huses⟩ | ⟨e, herror⟩
      · exact Or.inl ⟨s', used ++ used', last, q', t, huses.head hadv⟩
      · exact Or.inr ⟨e, herror.head hadv⟩
  · exact Or.inr ⟨_, hasError_of_scan hscan⟩

namespace UsesUp

variable {used last : List Char} {q : Bool} {t : TokenState}

theorem run_eq (h : UsesUp options s cs n peeked s' used last q t) (rest : List Answer) :
    s.run options ⟨Answer.chars cs ++ rest, n, peeked⟩ =
      s'.run options ⟨Answer.chars last ++ rest, n + used.length, q⟩ :=
  run_eq_of_advances (h.advances rest)

/-- What follows the characters is not reached before them. -/
theorem offset_le_run (h : UsesUp options s cs n peeked s' used last q t) (rest : List Answer) :
    n + cs.length ≤
      (stateAfter (s.run options ⟨Answer.chars cs ++ rest, n, peeked⟩)).offset := by
  rw [h.run_eq]
  calc n + cs.length ≤ (stateAfter (t.run rest (n + cs.length))).offset := t.offset_le_run _ _
    _ ≤ _ := by
      rw [← h.scan_eq]
      exact offset_scan_le_run options s' _

/-- A text that is used up is read to its end. -/
theorem result_eq (h : UsesUp options s cs n peeked s' used last q t) :
    Document.result (s.run options ⟨Answer.chars cs, n, peeked⟩) =
      (s'.finish options t).mapError fun cause => ⟨cause, n + cs.length⟩ := by
  have hrun := h.run_eq []
  have hlast := h.scan_eq []
  rw [List.append_nil] at hrun hlast
  rw [hrun, List.append_nil]
  exact result_run_of_scan hlast

/-- The only place of an error in it is its end. -/
theorem offset_eq (h : UsesUp options s cs n peeked s' used last q t)
    (herror : Document.result (s.run options ⟨Answer.chars cs, n, peeked⟩) = .error e) :
    e.offset = n + cs.length := by
  rw [h.result_eq] at herror
  cases hfinish : s'.finish options t <;> rw [hfinish] at herror <;> cases herror
  rfl

end UsesUp

end ReadState

/-! ### Errors of texts -/

namespace Document

open ReadState

theorem offset_of_result {α : Type} {r : EStateM.Result Cause Cursor α} {e : ParseError}
    (h : result r = .error e) : (stateAfter r).offset = e.offset := by
  cases r with
  | ok => cases h
  | error => cases h; rfl

/-- A text that ends before a place is told by its characters up to the place. -/
theorem eq_of_take_eq {t u : List Char} {n : ℕ} (ht : t.length ≤ n)
    (h : u.take (n + 1) = t.take (n + 1)) : u = t := by
  rw [List.take_of_length_le (Nat.le_succ_of_le ht)] at h
  have hlen := congrArg List.length h
  rw [List.length_take] at hlen
  rwa [List.take_of_length_le (by omega)] at h

/-- An error of a text is found within it, and it is also that of every text that has the same
characters up to the one after its offset.  The end of the input is found at the end only. -/
theorem parseSource_error (options : ReadOptions) {t : String} {cause : Cause} {n : ℕ}
    (h : parseSource options t.toList = .error ⟨cause, n⟩) :
    n ≤ t.toList.length ∧
      (∀ u : String, u.toList.take (n + 1) = t.toList.take (n + 1) →
        parseSource options u.toList = .error ⟨cause, n⟩) ∧
      (cause = .unexpectedEnd → n = t.toList.length) := by
  have hread : ∀ u : String, u.toList.take (n + 1) = t.toList.take (n + 1) →
      parseSource options u.toList = result (start.run options ⟨Answer.chars
        (t.toList.take (n + 1)) ++ Answer.chars (u.toList.drop (n + 1)), 0, false⟩) := by
    intro u hu
    rw [← hu, ← Answer.chars_append, List.take_append_drop, parseSource_eq_result]
  rw [hread t rfl] at h
  rcases run_append options start (t.toList.take (n + 1)) 0 false with
    ⟨s', used, last, q, tok, huses⟩ | ⟨e, herror⟩
  · -- what is used up reaches no further than the error, so it is the whole text
    have hle := huses.offset_le_run (Answer.chars (t.toList.drop (n + 1)))
    rw [Nat.zero_add, List.length_take, offset_of_result h] at hle
    have hlen : t.toList.length ≤ n := by
      dsimp only at hle
      omega
    have htake : t.toList.take (n + 1) = t.toList := List.take_of_length_le (by omega)
    have hdrop : t.toList.drop (n + 1) = [] := List.drop_eq_nil_of_le (by omega)
    rw [htake] at huses
    rw [htake, hdrop, Answer.chars_nil, List.append_nil] at h
    have hn : n = t.toList.length := (huses.offset_eq h).trans (Nat.zero_add _)
    refine ⟨hn.le, fun u hu => ?_, fun _ => hn⟩
    rw [parseSource_eq_result, eq_of_take_eq hlen hu]
    exact h
  · cases (herror.result_eq _).symm.trans h
    have hoffset := herror.offset_le
    rw [Nat.zero_add, List.length_take] at hoffset
    exact ⟨hoffset.trans (min_le_right _ _),
      fun u hu => (hread u hu).trans (herror.result_eq _),
      fun hend => absurd hend herror.cause_ne⟩

/-- A number that begins with a zero is refused at its second digit, and so in every text that begins
with the same three characters. -/
theorem parseSource_error_leadingZero :
    parseSource ⟨.insertion, some 1⟩ "[01]".toList = .error ⟨.invalidNumber, 2⟩ ∧
      2 ≤ "[01]".toList.length ∧
      (∀ u : String, u.toList.take 3 = "[01]".toList.take 3 →
        parseSource ⟨.insertion, some 1⟩ u.toList = .error ⟨.invalidNumber, 2⟩) ∧
      (Cause.invalidNumber = .unexpectedEnd → 2 = "[01]".toList.length) := by
  have hopen : Token.scan ⟨Answer.chars "[01]".toList, 0, false⟩ =
      .ok .beginArray ⟨Answer.chars ['0', '1', ']'], 1, false⟩ := rfl
  have hzero : Token.scan ⟨Answer.chars ['0', '1', ']'], 1, false⟩ =
      .error .invalidNumber ⟨Answer.chars ['1', ']'], 2, true⟩ := rfl
  have herror : parseSource ⟨.insertion, some 1⟩ "[01]".toList = .error ⟨.invalidNumber, 2⟩ := by
    rw [parseSource_eq_result, run_of_scan hopen nofun]
    exact congrArg result (run_of_scan_error hzero)
  exact ⟨herror, parseSource_error _ herror⟩

end Document

end JsonDoc
