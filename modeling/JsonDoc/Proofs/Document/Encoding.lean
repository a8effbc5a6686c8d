import JsonDoc.Proofs.Document.Extent
import JsonDoc.Proofs.Source.Encoding

/-!
# Documents in an encoding

Reading the characters before a failure of the source stops at an error of their own, which stands
whatever comes after them, or uses all of them and then meets the failure
(`ReadState.UsesUp.run_failed`).  So a list of units is read as the text that it is, and if it is
none, as the longest text it begins with goes (`Document.parse_encoded`).
-/

namespace JsonDoc

/-- Where characters are all used, a failure of the source that follows them is met. -/
theorem ReadState.UsesUp.run_failed {options : ReadOptions} {s s' : ReadState}
    {cs used last : List Char} {n : ℕ} {peeked q : Bool} {t : TokenState}
    (h : UsesUp options s cs n peeked s' used last q t) (e : SourceError) (rest : List Answer) :
    s.run options ⟨Answer.chars cs ++ .failed e :: rest, n, peeked⟩ =
      .error (.source e) ⟨rest, n + cs.length, false⟩ := by
  rw [h.run_eq]
  exact run_of_scan_error (h.scan_eq _)

namespace Document

open ReadState CharSource

section

variable {υ : Type} [CharSource (List υ)] {encode : Char → List υ} {failure : υ → SourceError}

theorem parseSource_text (h : Decodes encode failure) (options : ReadOptions) (cs : List Char) :
    parseSource options (cs.flatMap encode) = parseSource options cs := by
  rw [parseSource, parseSource, h.answers_text]

/-- Units that are no text are read as the longest text that they begin with, up to an error of it
or to the failure that comes after it. -/
theorem parseSource_malformed (h : Decodes encode failure) (options : ReadOptions)
    {units : List υ} (hunits : ∀ cs : List Char, units ≠ cs.flatMap encode) :
    ∃ cs unit rest, units = cs.flatMap encode ++ unit :: rest ∧ Malformed encode (unit :: rest) ∧
      IsLongestText encode units cs ∧
      (parseSource options units = .error ⟨.source (failure unit), cs.length⟩ ∨
        ∃ e, parseSource options units = .error e ∧
          ∀ ds : List Char, parseSource options (cs ++ ds) = .error e) := by
  obtain ⟨cs, rfl | ⟨unit, rest, rfl, hmal⟩⟩ := h.exists_text units
  · exact absurd rfl (hunits cs)
  refine ⟨cs, unit, rest, rfl, hmal, h.isLongestText hmal, ?_⟩
  have hanswers := h.answers_append cs (unit :: rest)
  obtain ⟨more, hmore⟩ := h.answers_malformed unit rest hmal
  rw [hmore] at hanswers
  rcases run_append options start cs 0 false with
    ⟨s', used, last, q, t, huses⟩ | ⟨e, herror⟩
  · left
    rw [parseSource, hanswers, read, Cursor.start, huses.run_failed, Nat.zero_add]
    rfl
  · right
    refine ⟨e, ?_, fun ds => ?_⟩
    · rw [parseSource, hanswers]
      exact herror.result_eq _
    · rw [parseSource_eq_result, Answer.chars_append]
      exact herror.result_eq _

end

/-! ### Strings that end in a zero -/

theorem untilNul_append {bytes : List UInt8} (h : 0 ∉ bytes) (rest : List UInt8) :
    untilNul (bytes ++ rest) = bytes ++ untilNul rest := by
  refine List.takeWhile_append_of_pos fun b hb => bne_iff_ne.mpr ?_
  rintro rfl
  exact h hb

theorem untilNul_bytes (s : CString) : untilNul s.bytes = s.bytes := by
  have hnil : untilNul [] = [] := rfl
  have h := untilNul_append s.zero_notMem []
  rwa [hnil, List.append_nil] at h

theorem parseNulTerminated_bytes (order : MemberOrder) (s : CString) :
    parseNulTerminated order s.bytes = parseCString order s := by
  rw [parseNulTerminated, untilNul_bytes, parseCString]

theorem parseNulTerminated_append (order : MemberOrder) (s : CString) (rest : List UInt8) :
    parseNulTerminated order (s.bytes ++ 0 :: rest) = parseCString order s := by
  have hzero : untilNul (0 :: rest) = [] := rfl
  rw [parseNulTerminated, untilNul_append s.zero_notMem, hzero, List.append_nil, parseCString]

/-! ### Texts in memory -/

/-- Bytes and code units that are a text are read as the text is.  Any others are read as the
longest text that they begin with, up to an error that it has whatever follows it, or else up to
its end, where the source fails.  Of bytes that a zero ends only those before it are read. -/
theorem parse_encoded (order : MemberOrder) :
    (∀ text : String, parseUtf8 order (text.toList.flatMap Utf8.encode) = parse order text) ∧
    (∀ bytes, (∀ text : String, bytes ≠ text.toList.flatMap Utf8.encode) →
      ∃ p, IsLongestText Utf8.encode bytes p ∧
        (parseUtf8 order bytes = .error ⟨.source .invalidUtf8, p.length⟩ ∨
          ∃ e, parseUtf8 order bytes = .error e ∧
            ∀ u, parse order (String.ofList (p ++ u)) = .error e)) ∧
    (∀ text : String, parseUtf16 order (text.toList.flatMap Utf16.encode) = parse order text) ∧
    (∀ units, (∀ text : String, units ≠ text.toList.flatMap Utf16.encode) →
      ∃ p unit rest, units = p.flatMap Utf16.encode ++ unit :: rest ∧
        (Surrogate.isLead unit || Surrogate.isTrail unit) ∧ IsLongestText Utf16.encode units p ∧
        (parseUtf16 order units = .error ⟨.source (.unpairedSurrogate unit), p.length⟩ ∨
          ∃ e, parseUtf16 order units = .error e ∧
            ∀ u, parse order (String.ofList (p ++ u)) = .error e)) ∧
    ∀ (s : CString) (rest : List UInt8),
      parseNulTerminated order (s.bytes ++ 0 :: rest) = parseUtf8 order s.bytes ∧
      parseNulTerminated order s.bytes = parseUtf8 order s.bytes ∧
      parseCString order s = parseUtf8 order s.bytes := by
  have htext : ∀ cs, parse order (String.ofList cs) = parseSource (unlimited order) cs := by
    intro cs
    rw [parse, String.toList_ofList]
  have hchars : ∀ {υ : Type} {encode : Char → List υ} {units : List υ},
      (∀ text : String, units ≠ text.toList.flatMap encode) →
        ∀ cs : List Char, units ≠ cs.flatMap encode := by
    intro υ encode units h cs
    have := h (String.ofList cs)
    rwa [String.toList_ofList] at this
  simp only [htext]
  refine ⟨fun text => parseSource_text Utf8.decodes _ _, fun bytes h => ?_,
    fun text => parseSource_text Utf16.decodes _ _, fun units h => ?_, fun s rest => ?_⟩
  · obtain ⟨p, -, -, -, -, hlongest, herror⟩ :=
      parseSource_malformed Utf8.decodes (unlimited order) (hchars h)
    exact ⟨p, hlongest, herror⟩
  · obtain ⟨p, unit, rest, hunits, hmal, hlongest, herror⟩ :=
      parseSource_malformed Utf16.decodes (unlimited order) (hchars h)
    exact ⟨p, unit, rest, hunits, Utf16.isSurrogate_of_malformed hmal, hlongest, herror⟩
  · exact ⟨parseNulTerminated_append order s rest, parseNulTerminated_bytes order s, rfl⟩

-- the second of two characters has lost its last byte: the quote and the first one count
example :
    (match parseUtf8 .insertion [0x22, 0xe2, 0x82, 0xac, 0xe2, 0x82, 0x22] with
    | .error e => some e
    | .ok _ => none) = some ⟨.source .invalidUtf8, 2⟩ := by decide +kernel

end Document

end JsonDoc
