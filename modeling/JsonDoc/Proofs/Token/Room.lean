import JsonDoc.Text.Buffer
import JsonDoc.Text.Utf8
import JsonDoc.Proofs.Token.Rounding

/-!
# Room for the text of a number

The decimal that a number is rounded by is written out as the text of a literal
(`Numeral.text_eq_text_literal`), which never has more bytes than its buffer.  So the text is written
as a whole, however it is cut into pieces, no arithmetic of the writes faults, and what is read back
is the number that the numeral stands for (`Numeral.bufferedFloat_eq`).  No literal is refused for
its text (`scan_fits_buffer`).
-/

namespace JsonDoc

/-! ### The literal of a decimal -/

/-- The literal of a decimal: all its digits before the point, and its exponent. -/
def Decimal.literal (d : Decimal) : NumberLiteral where
  negative := false
  integer := ⟨Nat.toDigits 10 d.coefficient, isDigits_toDigits _, Nat.toDigits_ne_nil⟩
  no_leading_zero := by
    intro hzero
    rcases Nat.eq_zero_or_pos d.coefficient with h | h
    · rw [h]
      rfl
    · exact absurd hzero (head?_toDigits_ne h)
  fraction := none
  exponent := some (.ofInt d.exponent)

namespace Decimal

variable (d : Decimal)

theorem text_literal :
    d.literal.text = Nat.toDigits 10 d.coefficient ++ 'e' :: Integer.text d.exponent := by
  rw [← ExponentPart.body_ofInt]
  rfl

theorem significand_literal : d.literal.significand = d.coefficient := by
  unfold NumberLiteral.significand literal
  dsimp only [NumberLiteral.fractionDigits]
  rw [List.append_nil, Nat.ofDigitChars_ten_toDigits]

theorem power_literal : d.literal.power = d.exponent := by
  unfold NumberLiteral.power literal
  dsimp only [NumberLiteral.fractionDigits]
  rw [ExponentPart.value_ofInt]
  simp

/-- The text of a literal of whole digits is read as its value. -/
theorem ofText?_literal :
    ofText? d.literal.text = some ⟨d.literal.significand, d.literal.power⟩ := by
  rw [significand_literal, power_literal, text_literal,
    ofText?_append (isDigits_toDigits _) Nat.toDigits_ne_nil, Nat.ofDigitChars_ten_toDigits]

end Decimal

/-- The text of a numeral is that of the literal of its decimal. -/
theorem Numeral.text_eq_text_literal {n : Numeral}
    (h : n.mantissa.toNat = 0 → n.truncated = false) : n.text = n.decimal.literal.text := by
  rw [Decimal.text_literal]
  unfold text decimal
  split
  case isTrue htruncated =>
    have hpos : 0 < n.mantissa.toNat := by
      rw [Nat.pos_iff_ne_zero]
      intro hzero
      rw [h hzero] at htruncated
      cases htruncated
    dsimp only
    rw [← Nat.toDigits_append_toDigits (by decide) hpos (by decide), List.append_assoc]
    rfl
  case isFalse => rfl

/-! ### Bytes of a text -/

namespace Utf8

/-- Characters of ASCII are one byte each. -/
theorem length_flatMap_encode {cs : List Char} (h : ∀ c ∈ cs, c.toNat < 0x80) :
    (cs.flatMap encode).length = cs.length := by
  induction cs with
  | nil => rfl
  | cons c cs ih =>
    obtain ⟨hc, hcs⟩ := List.forall_mem_cons.mp h
    have hone : (encode c).length = 1 := by
      rw [encode, String.length_utf8EncodeChar, Char.utf8Size_eq_one_iff]
      exact Nat.le_of_lt_succ hc
    rw [List.flatMap_cons, List.length_append, hone, ih hcs, List.length_cons, Nat.add_comm]

end Utf8

theorem IsDigits.toNat_lt {cs : List Char} (h : IsDigits cs) : ∀ c ∈ cs, c.toNat < 0x80 := by
  intro c hc
  have := Decimal.digit_lt_ten (h c hc)
  omega

namespace Numeral

variable (n : Numeral)

theorem toNat_lt_of_mem_text : ∀ c ∈ n.text, c.toNat < 0x80 := by
  have hinteger : ∀ i, ∀ c ∈ 'e' :: Integer.text i, c.toNat < 0x80 := by
    intro i
    have hdigits := (isDigits_toDigits i.natAbs).toNat_lt
    refine List.forall_mem_cons.mpr ⟨by decide, ?_⟩
    unfold Integer.text
    split
    · exact List.forall_mem_cons.mpr ⟨by decide, hdigits⟩
    · exact hdigits
  have hmantissa := (isDigits_toDigits n.mantissa.toNat).toNat_lt
  unfold text
  dsimp only
  split
  · exact List.forall_mem_append.mpr
      ⟨hmantissa, List.forall_mem_cons.mpr ⟨by decide, hinteger _⟩⟩
  · exact List.forall_mem_append.mpr ⟨hmantissa, hinteger _⟩

/-- The text never has more bytes than there is room for. -/
theorem length_encode_text_le : (n.text.flatMap Utf8.encode).length ≤ textCapacity := by
  rw [Utf8.length_flatMap_encode n.toNat_lt_of_mem_text]
  exact n.length_text_le

/-! ### Writing the text -/

/-- The floating point number nearest to the number, from a text that is written to a buffer piece by
piece.  A buffer that is full is a cause of the number, and any other fault is not. -/
def bufferedFloat (pieces : List (List Char)) : Except WriteFault (Except Cause Binary64) :=
  if n.mantissa = 0 then .ok (.ok (.finite n.negative .zero))
  else
    match (Buffer.zeros textCapacity).writeAll (pieces.map (List.flatMap Utf8.encode)) with
    | .error .full => .ok (.error .invalidNumber)
    | .error fault => .error fault
    | .ok b =>
      b.written.map fun bytes =>
        match (Utf8.text? bytes).bind Decimal.ofText? with
        | none => .error .invalidNumber
        | some d =>
          let x := d.toBinary64 n.negative
          if x.isFinite then .ok x else .error .numberOutOfRange

variable {n} {pieces : List (List Char)}

/-- However the text is cut into pieces, it is written as a whole. -/
theorem writeAll_text (h : pieces.flatten = n.text) :
    (Buffer.zeros textCapacity).writeAll (pieces.map (List.flatMap Utf8.encode)) =
      .ok (.filled textCapacity (n.text.flatMap Utf8.encode)) := by
  have hbytes : (pieces.map (List.flatMap Utf8.encode)).flatten = n.text.flatMap Utf8.encode := by
    rw [← h, List.flatMap_def, List.map_flatten, List.flatten_flatten, List.map_map]
    rfl
  rw [Buffer.writeAll_zeros, hbytes, if_pos n.length_encode_text_le]

/-- A number is what is read back from its buffer, and no write faults. -/
theorem bufferedFloat_eq (h : pieces.flatten = n.text) : n.bufferedFloat pieces = .ok n.float := by
  unfold bufferedFloat float
  split
  case isTrue => rfl
  case isFalse =>
    rw [writeAll_text h, if_neg (not_lt.mpr n.length_text_le)]
    dsimp only
    rw [Buffer.written_filled n.length_encode_text_le]
    dsimp only [Except.map]
    rw [Utf8.text?_encode, Option.bind_some, ofText?_text]

end Numeral

/-! ### Literals -/

/-- A literal of any length and with any exponent is rounded by the text of a literal, which is read
as the decimal that it denotes.  There is room for this text, and however it is cut into pieces, they
are all written and no write faults.  So the literal is read, to its end, as a token, or it is out of
range. -/
theorem scan_fits_buffer (l : NumberLiteral) {u : List Char} (hu : l.EndsBefore u) (n : ℕ)
    (peeked : Bool) :
    (∃ w : NumberLiteral, l.numeral.text = w.text ∧
      Decimal.ofText? w.text = some ⟨w.significand, w.power⟩) ∧
    (l.numeral.text.flatMap Utf8.encode).length ≤ Numeral.textCapacity ∧
    (∀ pieces : List (List Char), pieces.flatten = l.numeral.text →
      (Buffer.zeros Numeral.textCapacity).writeAll (pieces.map (List.flatMap Utf8.encode)) =
          .ok (.filled Numeral.textCapacity (l.numeral.text.flatMap Utf8.encode)) ∧
        l.numeral.bufferedFloat pieces = .ok l.numeral.float) ∧
    Token.scan ⟨Answer.chars (l.text ++ u), n, peeked⟩ =
      TokenState.settled u (n + l.text.length) l.token ∧
    ((∃ tok, l.token = .ok tok) ∨ l.token = .error .numberOutOfRange) := by
  refine ⟨⟨_, Numeral.text_eq_text_literal l.truncated_eq_false, Decimal.ofText?_literal _⟩,
    l.numeral.length_encode_text_le, fun pieces h => ⟨Numeral.writeAll_text h, ?_⟩,
    scan_literal l hu n peeked, ?_⟩
  · exact Numeral.bufferedFloat_eq h
  · rcases l.numeral.token_cases with ⟨i, h⟩ | ⟨x, -, h⟩ | h
    · exact Or.inl ⟨_, h⟩
    · exact Or.inl ⟨_, h⟩
    · exact Or.inr h

/-- The largest mantissa, a digit that is left out, and an exponent below the least one of 64 bits. -/
def longestText : NumberLiteral where
  negative := true
  integer := ⟨"184467440737095516".toList, fun _ => List.all_eq_true.mp (by decide) _, by decide⟩
  no_leading_zero := by decide
  fraction := some ⟨"151".toList, fun _ => List.all_eq_true.mp (by decide) _, by decide⟩
  exponent := some
    { letter := 'E'
      letter_eq := by decide
      sign := some '-'
      sign_eq := by
        rintro _ ⟨⟩
        exact Or.inl rfl
      digits := ⟨"99999999999999999999".toList, fun _ => List.all_eq_true.mp (by decide) _,
        by decide⟩ }

/-- The text of this literal leaves no room. -/
theorem scan_fits_buffer_full :
    let pieces := ["18446744073709551615", "1e", "-", "9223372036854775808"].map String.toList
    longestText.EndsBefore [','] ∧ pieces.flatten = longestText.numeral.text ∧
    (∃ b, (Buffer.zeros Numeral.textCapacity).writeAll (pieces.map (List.flatMap Utf8.encode)) =
      .ok b ∧ b.position = Numeral.textCapacity) ∧
    longestText.numeral.bufferedFloat pieces = .ok (.ok (.finite true .zero)) ∧
    Token.scan ⟨Answer.chars (longestText.text ++ [',']), 0, false⟩ =
      TokenState.settled [','] 45 (.ok (.float (.finite true .zero))) := by
  intro pieces
  have hends : longestText.EndsBefore [','] := by
    rintro _ ⟨⟩
    exact ⟨by decide, nofun, nofun⟩
  have hpieces : pieces.flatten = longestText.numeral.text := by decide +kernel
  have hfloat : longestText.numeral.float = .ok (.finite true .zero) := by decide +kernel
  have htoken : longestText.token = .ok (.float (.finite true .zero)) := by decide +kernel
  obtain ⟨-, -, hwrites, hscan, -⟩ := scan_fits_buffer longestText hends 0 false
  obtain ⟨hwritten, hbuffered⟩ := hwrites pieces hpieces
  refine ⟨hends, hpieces, ⟨_, hwritten, by decide +kernel⟩, by rw [hbuffered, hfloat], ?_⟩
  rw [hscan, htoken]
  rfl

end JsonDoc
