import JsonDoc.Proofs.Document.Extent

/-!
# The beginning of a document

A text that begins a document is one itself, or it has no error but at its end: there the input ends
too early, or within a number that is out of range so far (`Document.parse_of_append`).
-/

namespace JsonDoc

/-! ### Numbers -/

/-- The token is a number. -/
def Token.IsNumber : Token → Prop
  | .integer _ | .float _ => True
  | _ => False

/-- The token that a move completes. -/
def Move.token? {σ : Type} : Move σ → Option Token
  | .accept t => some t
  | .acceptBefore t => some t
  | _ => none

variable {tok tok' : Token}

theorem Numeral.isNumber_of_settle {σ : Type} {n : Numeral}
    (h : (Move.settle n.token : Move σ).token? = some tok) : tok.IsNumber := by
  rcases n.token_cases with ⟨i, ht⟩ | ⟨x, -, ht⟩ | ht <;> rw [ht] at h <;> cases h <;> trivial

namespace NumberState

theorem isNumber_of_afterInteger {n : Numeral} {c : Char}
    (h : (afterInteger n c).token? = some tok) : tok.IsNumber := by
  unfold afterInteger at h
  split at h
  · cases h
  · split at h
    · cases h
    · exact Numeral.isNumber_of_settle h

theorem isNumber_of_step {s : NumberState} {c : Char} (h : (s.step c).token? = some tok) :
    tok.IsNumber := by
  cases s with
  | sign n | point n | markSign n _ =>
    simp only [step] at h
    split at h <;> cases h
  | zero n | integer n =>
    simp only [step] at h
    split at h
    · cases h
    · exact isNumber_of_afterInteger h
  | fraction n =>
    simp only [step] at h
    split at h
    · cases h
    · split at h
      · cases h
      · exact Numeral.isNumber_of_settle h
  | mark n =>
    simp only [step] at h
    split at h
    · cases h
    · split at h
      · cases h
      · split at h <;> cases h
  | exponent n _ _ =>
    simp only [step] at h
    split at h
    · cases h
    · exact Numeral.isNumber_of_settle h

/-- The input may end within a number, or behind it. -/
theorem atEnd_cases (s : NumberState) :
    (∃ tok, tok.IsNumber ∧ s.atEnd = .acceptBefore tok) ∨
      (s.atEnd = .reject .unexpectedEnd ∨ s.atEnd = .rejectBefore .unexpectedEnd) ∨
      s.atEnd = .rejectBefore .numberOutOfRange := by
  have hsettle : ∀ n : Numeral, s.atEnd = .settle n.token →
      (∃ tok, tok.IsNumber ∧ s.atEnd = .acceptBefore tok) ∨
        s.atEnd = .rejectBefore .numberOutOfRange := by
    intro n h
    rcases n.token_cases with ⟨i, ht⟩ | ⟨x, -, ht⟩ | ht
    · exact Or.inl ⟨.integer i, trivial, by rw [h, ht]; rfl⟩
    · exact Or.inl ⟨.float x, trivial, by rw [h, ht]; rfl⟩
    · exact Or.inr (by rw [h, ht]; rfl)
  cases s with
  | sign n => exact Or.inr (Or.inl (Or.inl rfl))
  | point n | mark n | markSign n _ => exact Or.inr (Or.inl (Or.inr rfl))
  | zero n | integer n | fraction n | exponent n _ _ =>
    rcases hsettle _ rfl with h | h
    · exact Or.inl h
    · exact Or.inr (Or.inr h)

end NumberState

/-- What is read from within a number on is a number. -/
theorem TokenState.isNumber_of_run {s : NumberState} {answers : List Answer} {n : ℕ} {cur : Cursor}
    (h : (number s).run answers n = .ok tok cur) : tok.IsNumber := by
  have hend : ∀ (s : NumberState) (here next : Cursor),
      resolve here next Empty.elim s.atEnd = .ok tok cur → tok.IsNumber := by
    intro s here next h
    rcases s.atEnd_cases with ⟨t, ht, hend⟩ | (hend | hend) | hend <;> rw [hend] at h <;> cases h
    exact ht
  induction answers generalizing s n with
  | nil => exact hend s _ _ h
  | cons a rest ih =>
    cases a with
    | ended => exact hend s _ _ h
    | failed e => cases h
    | char c =>
      rw [run, step] at h
      cases hstep : s.step c with
      | shift t =>
        rw [hstep] at h
        exact ih h
      | accept t | acceptBefore t =>
        rw [hstep] at h
        cases h
        exact NumberState.isNumber_of_step (congrArg Move.token? hstep)
      | reject cause | rejectBefore cause =>
        rw [hstep] at h
        cases h

theorem NumberLiteral.EndsBefore.of_append {l : NumberLiteral} {u v : List Char}
    (h : l.EndsBefore (u ++ v)) : l.EndsBefore u := by
  intro c hc
  rw [Option.mem_def] at hc
  exact h c (by rw [List.head?_append, hc, Option.some_or, Option.mem_some])

/-- Characters that have no number within range, but begin with others a literal that has one, end
within the literal. -/
theorem length_lt_of_scan {last more w u : List Char} {l : NumberLiteral} {n : ℕ} {q : Bool}
    {cur : Cursor} (h : Token.scan ⟨Answer.chars last, n, q⟩ = .error .numberOutOfRange cur)
    (hw : IsBlanks w) (hu : l.EndsBefore u) (ht : l.token = .ok tok)
    (heq : last ++ more = w ++ (l.text ++ u)) :
    w.length < last.length ∧ last.length < w.length + l.text.length := by
  have hprefix : last <+: w ++ (l.text ++ u) := ⟨more, heq⟩
  constructor
  · by_contra hle
    -- blanks alone have no number at all
    obtain ⟨x, rfl⟩ := List.prefix_of_prefix_length_le hprefix (List.prefix_append w _)
      (not_lt.mp hle)
    have hblanks : IsBlanks last := fun c hc => hw c (List.mem_append_left x hc)
    have hscan := TokenState.run_blanks hblanks [] n
    rw [List.append_nil] at hscan
    cases hscan.symm.trans h
  · by_contra hge
    rw [← List.append_assoc] at hprefix heq
    obtain ⟨r, rfl⟩ := List.prefix_of_prefix_length_le (List.prefix_append (w ++ l.text) u) hprefix
      (by rw [List.length_append]; exact not_lt.mp hge)
    rw [List.append_assoc _ r, List.append_cancel_left_eq] at heq
    subst heq
    rw [List.append_assoc, scan_blanks_literal hw hu.of_append, ht] at h
    cases h

namespace ReadState

variable {options : ReadOptions} {s s' s₁ : ReadState} {cs used last : List Char} {n : ℕ}
  {peeked q : Bool} {t : TokenState} {v : Value} {cur fin : Cursor} {rest : List Answer}

/-- Where one number may stand any other may. -/
theorem exists_step_of_isNumber (htok : tok.IsNumber) (htok' : tok'.IsNumber)
    (h : s.step options tok = .ok s₁) : ∃ s₂, s.step options tok' = .ok s₂ := by
  obtain ⟨place, frames⟩ := s
  cases place <;> cases tok <;> cases htok <;> cases tok' <;> cases htok' <;> cases h <;>
    exact ⟨_, rfl⟩

theorem atEnd_cases (s : ReadState) :
    (∃ v, s.atEnd = .ok v) ∨ s.atEnd = .error .unexpectedEnd := by
  obtain ⟨place, frames⟩ := s
  cases place with
  | complete v => exact Or.inl ⟨v, rfl⟩
  | _ => exact Or.inr rfl

/-- Characters that begin a document end as one, or too early, or within a number. -/
theorem UsesUp.finish_cases (h : UsesUp options s cs n peeked s' used last q t)
    (hok : s.run options ⟨Answer.chars cs ++ rest, n, peeked⟩ = .ok v fin) :
    (∃ w, s'.finish options t = .ok w) ∨ s'.finish options t = .error .unexpectedEnd ∨
      s'.finish options t = .error .numberOutOfRange ∧
        t.atEnd = .rejectBefore .numberOutOfRange := by
  have hdocument : ∀ s : ReadState, (∃ w, s.atEnd = .ok w) ∨ s.atEnd = .error .unexpectedEnd ∨
      s.atEnd = .error .numberOutOfRange ∧ t.atEnd = .rejectBefore .numberOutOfRange :=
    fun s => s.atEnd_cases.imp_right Or.inl
  cases t with
  | blank => exact hdocument s'
  | word | string => exact Or.inr (Or.inl rfl)
  | number state =>
    have hnumber : (TokenState.number state).atEnd = state.atEnd := rfl
    rcases state.atEnd_cases with ⟨tok, htok, hend⟩ | (hend | hend) | hend
    · -- the number of the document may be another one, and another may stand in its place
      rw [h.run_eq] at hok
      obtain ⟨tok', next, hscan, hstep⟩ := exists_scan_of_run hok
      have htok' := TokenState.isNumber_of_run ((h.scan_eq rest).symm.trans hscan)
      obtain ⟨-, s₁, hs₁, -⟩ := hstep.resolve_left (by rintro ⟨rfl, -⟩; exact htok')
      obtain ⟨s₂, hs₂⟩ := exists_step_of_isNumber htok' htok hs₁
      have hfinish : s'.finish options (.number state) = s₂.atEnd := by
        rw [finish, hnumber, hend]
        dsimp only
        rw [if_neg (by rintro rfl; exact htok), hs₂]
      rw [hfinish]
      exact hdocument s₂
    · exact Or.inr (Or.inl (by rw [finish, hnumber, hend]))
    · exact Or.inr (Or.inl (by rw [finish, hnumber, hend]))
    · exact Or.inr (Or.inr ⟨by rw [finish, hnumber, hend], hend⟩)

end ReadState

/-! ### Documents -/

namespace Document

open ReadState

/-- The end of the first text lies within a number literal of both together, at a place where they
are read on with a token. -/
def CutsNumber (order : MemberOrder) (t s : String) : Prop :=
  ∃ (x : ReadState × Cursor) (w : List Char) (l : NumberLiteral) (u : List Char),
    Visits order (beginning (t ++ s)) x ∧ x.2.pending = Answer.chars (w ++ (l.text ++ u)) ∧
    IsBlanks w ∧ l.EndsBefore u ∧ x.2.offset + w.length < t.toList.length ∧
    t.toList.length < x.2.offset + w.length + l.text.length

/-- A number that is out of range at the end of a text goes on in a document that begins so. -/
theorem cutsNumber_of_usesUp {order : MemberOrder} {t s : String} {s' : ReadState}
    {used last : List Char} {q : Bool} {state : TokenState} {v : Value} {fin : Cursor}
    (h : UsesUp (unlimited order) start t.toList 0 false s' used last q state)
    (hok : start.run (unlimited order)
      ⟨Answer.chars t.toList ++ Answer.chars s.toList, 0, false⟩ = .ok v fin)
    (hend : state.atEnd = .rejectBefore .numberOutOfRange) : CutsNumber order t s := by
  -- at its end alone the token of the first text has no value
  have hlast : Token.scan ⟨Answer.chars last, 0 + used.length, q⟩ =
      .error .numberOutOfRange ⟨[], 0 + t.toList.length, true⟩ := by
    have hscan := h.scan_eq []
    rwa [List.append_nil, TokenState.run, hend] at hscan
  rw [h.run_eq] at hok
  obtain ⟨tok, next, hscan, -⟩ := exists_scan_of_run hok
  have htok : tok.IsNumber := by
    cases state with
    | number state => exact TokenState.isNumber_of_run ((h.scan_eq _).symm.trans hscan)
    | blank | word | string => cases hend
  have hvisits := h.advances (Answer.chars s.toList)
  rw [← Answer.chars_append] at hscan hvisits
  rw [← Answer.chars_append] at hvisits
  obtain ⟨u, -, -, -, hscans⟩ := exists_scansTo hscan
  have hlength := congrArg List.length h.eq_append
  rw [List.length_append] at hlength
  generalize hcs : last ++ s.toList = cs at *
  cases hscans with
  | endOfInput => exact absurd htok id
  | token _ ht => cases ht <;> exact absurd htok id
  | @number w u l tok hw hu ht =>
    obtain ⟨hlow, hhigh⟩ := length_lt_of_scan hlast hw hu ht hcs
    refine ⟨(s', ⟨Answer.chars (w ++ (l.text ++ u)), 0 + used.length, q⟩), w, l, u, ?_, rfl, hw, hu,
      ?_, ?_⟩
    · rw [beginning, String.toList_append]
      exact hvisits
    · dsimp only
      omega
    · dsimp only
      omega

/-- A text that begins a document is one as well, or its only error is at its end: the input ends
too early, or within a number that is out of range without the digits that follow. -/
theorem parse_of_append {order : MemberOrder} {t s : String} {v : Value}
    (h : parse order (t ++ s) = .ok v) :
    (∃ w, parse order t = .ok w) ∨ parse order t = .error ⟨.unexpectedEnd, t.toList.length⟩ ∨
      parse order t = .error ⟨.numberOutOfRange, t.toList.length⟩ ∧ CutsNumber order t s := by
  rw [parse_eq_result, String.toList_append, Answer.chars_append] at h
  rw [parse_eq_result]
  rcases run_append (unlimited order) start t.toList 0 false with
    ⟨s', used, last, q, state, huses⟩ | ⟨e, herror⟩
  · obtain ⟨fin, hrun⟩ := exists_of_result h
    rw [huses.result_eq, Nat.zero_add]
    rcases huses.finish_cases hrun with ⟨w, hw⟩ | hw | ⟨hw, hend⟩ <;> rw [hw]
    · exact Or.inl ⟨w, rfl⟩
    · exact Or.inr (Or.inl rfl)
    · exact Or.inr (Or.inr ⟨rfl, cutsNumber_of_usesUp huses hrun hend⟩)
  · cases (herror.result_eq _).symm.trans h

/-- A text that ends within an escape, and then goes on to both halves of a character. -/
theorem parse_of_append_surrogate :
    parse .insertion ("[\"\\ud8" ++ "3d\\ude00\"]") = .ok (.array [.string "😀"]) ∧
      ((∃ w, parse .insertion "[\"\\ud8" = .ok w) ∨
        parse .insertion "[\"\\ud8" = .error ⟨.unexpectedEnd, "[\"\\ud8".toList.length⟩ ∨
        parse .insertion "[\"\\ud8" = .error ⟨.numberOutOfRange, "[\"\\ud8".toList.length⟩ ∧
          CutsNumber .insertion "[\"\\ud8" "3d\\ude00\"]") := by
  have hopen : Token.scan ⟨Answer.chars ("[\"\\ud8" ++ "3d\\ude00\"]").toList, 0, false⟩ =
      .ok .beginArray ⟨Answer.chars "\"\\ud83d\\ude00\"]".toList, 1, false⟩ := rfl
  have hstring : Token.scan ⟨Answer.chars "\"\\ud83d\\ude00\"]".toList, 1, false⟩ =
      .ok (.string "😀") ⟨Answer.chars [']'], 15, false⟩ := rfl
  have hclose : Token.scan ⟨Answer.chars [']'], 15, false⟩ = .ok .endArray ⟨[], 16, false⟩ := rfl
  have hrun : start.run (unlimited .insertion)
      ⟨Answer.chars ("[\"\\ud8" ++ "3d\\ude00\"]").toList, 0, false⟩ =
        .ok (.array [.string "😀"]) ⟨[], 16, false⟩ := by
    refine (run_of_scan hopen nofun).trans ?_
    refine (run_of_scan hstring nofun).trans ?_
    refine (run_of_scan hclose nofun).trans ?_
    exact run_of_scan_end rfl
  have hdocument :
      parse .insertion ("[\"\\ud8" ++ "3d\\ude00\"]") = .ok (.array [.string "😀"]) := by
    rw [parse_eq_result, hrun]
    rfl
  exact ⟨hdocument, parse_of_append hdocument⟩

end Document

end JsonDoc
