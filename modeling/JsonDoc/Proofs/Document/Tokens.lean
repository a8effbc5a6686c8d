import JsonDoc.Proofs.Document.Completeness

/-!
# The tokens of a text

Scanning again and again up to the end of the input gives the tokens of a text (`Document.tokens`).
A text is read by its tokens alone: another text with the same tokens is read as the same value
(`Document.parse_of_tokens`).
-/

namespace JsonDoc

/-! ### Scanning again and again -/

/-- The tokens from a cursor on, up to the end of the input. -/
def Token.scanAll (cur : Cursor) : Except ParseError (List Token) :=
  match h : Token.scan cur with
  | .error cause next => .error ⟨cause, next.offset⟩
  | .ok tok next =>
    if ht : tok = .endOfInput then .ok []
    else
      have : next.pending.length < cur.pending.length := Token.length_pending_scan_lt h ht
      (Token.scanAll next).map (tok :: ·)
termination_by cur.pending.length

/-- The tokens of a text. -/
def Document.tokens (text : String) : Except ParseError (List Token) :=
  Token.scanAll (.start (CharSource.answers text.toList))

namespace Token

variable {cur next : Cursor} {tok : Token} {toks : List Token} {cause : Cause}

theorem scanAll_of_scan_error (h : scan cur = .error cause next) :
    scanAll cur = .error ⟨cause, next.offset⟩ := by
  rw [scanAll]
  split <;> rename_i h' <;> rw [h] at h' <;> cases h'
  rfl

theorem scanAll_of_scan_end (h : scan cur = .ok .endOfInput next) : scanAll cur = .ok [] := by
  rw [scanAll]
  split <;> rename_i h' <;> rw [h] at h' <;> cases h'
  exact dif_pos rfl

theorem scanAll_of_scan (h : scan cur = .ok tok next) (ht : tok ≠ .endOfInput) :
    scanAll cur = (scanAll next).map (tok :: ·) := by
  rw [scanAll]
  split <;> rename_i h' <;> rw [h] at h' <;> cases h'
  exact dif_neg ht

theorem exists_scan_end (h : scanAll cur = .ok []) : ∃ next, scan cur = .ok .endOfInput next := by
  cases hscan : scan cur with
  | error cause next =>
    rw [scanAll_of_scan_error hscan] at h
    cases h
  | ok tok next =>
    by_cases ht : tok = .endOfInput
    · exact ⟨next, by rw [ht]⟩
    · rw [scanAll_of_scan hscan ht] at h
      cases hnext : scanAll next <;> rw [hnext] at h <;> cases h

theorem exists_scan_cons (h : scanAll cur = .ok (tok :: toks)) :
    ∃ next, scan cur = .ok tok next ∧ tok ≠ .endOfInput ∧ scanAll next = .ok toks := by
  cases hscan : scan cur with
  | error cause next =>
    rw [scanAll_of_scan_error hscan] at h
    cases h
  | ok tok' next =>
    by_cases ht : tok' = .endOfInput
    · subst ht
      rw [scanAll_of_scan_end hscan] at h
      cases h
    · rw [scanAll_of_scan hscan ht] at h
      cases hnext : scanAll next with
      | error e =>
        rw [hnext] at h
        cases h
      | ok toks' =>
        rw [hnext] at h
        cases h
        exact ⟨next, rfl, ht, hnext⟩

end Token

/-! ### Reading by tokens -/

/-- Where the tokens are the same, what is read is the same. -/
theorem ReadState.run_of_scanAll {options : ReadOptions} {s : ReadState} {cur cur' fin : Cursor}
    {toks : List Token} {v : Value} (h : Token.scanAll cur = .ok toks)
    (h' : Token.scanAll cur' = .ok toks) (hrun : s.run options cur = .ok v fin) :
    ∃ fin', s.run options cur' = .ok v fin' := by
  induction toks generalizing s cur cur' with
  | nil =>
    obtain ⟨next, hscan⟩ := Token.exists_scan_end h
    obtain ⟨next', hscan'⟩ := Token.exists_scan_end h'
    obtain ⟨tok, next₁, hscan₁, ⟨-, hend⟩ | ⟨ht, -⟩⟩ := exists_scan_of_run hrun
    · refine ⟨next', ?_⟩
      rw [run_of_scan_end hscan', hend]
    · cases hscan.symm.trans hscan₁
      exact absurd rfl ht
  | cons tok toks ih =>
    obtain ⟨next, hscan, ht, hnext⟩ := Token.exists_scan_cons h
    obtain ⟨next', hscan', -, hnext'⟩ := Token.exists_scan_cons h'
    obtain ⟨tok₁, next₁, hscan₁, hrest⟩ := exists_scan_of_run hrun
    cases hscan.symm.trans hscan₁
    obtain ⟨s', hstep, hrun'⟩ := (hrest.resolve_left fun hend => ht hend.1).2
    rw [run_of_scan hscan' ht, hstep]
    exact ih hnext hnext' hrun'

namespace Document

variable {order : MemberOrder} {t u : String} {toks : List Token} {v : Value}

theorem tokens_eq_scanAll (text : String) :
    tokens text = Token.scanAll ⟨Answer.chars text.toList, 0, false⟩ := by
  rw [tokens, answers_chars]
  rfl

/-- A text with the tokens of a document is the same document. -/
theorem parse_of_tokens (ht : tokens t = .ok toks) (hu : tokens u = .ok toks)
    (h : parse order t = .ok v) : parse order u = .ok v := by
  rw [tokens_eq_scanAll] at ht hu
  rw [parse_eq_result] at h ⊢
  obtain ⟨fin, hrun⟩ := exists_of_result h
  obtain ⟨fin', hrun'⟩ := ReadState.run_of_scanAll ht hu hrun
  rw [hrun']
  rfl

end Document

end JsonDoc
