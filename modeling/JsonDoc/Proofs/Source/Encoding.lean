import Mathlib.Data.List.Basic
import Mathlib.Data.Nat.Init
import JsonDoc.Proofs.Token.Text
import JsonDoc.Text.Utf16

/-!
# Decoding is strict

A source of units of a list answers with the characters whose units are there, and fails where no
character is written (`Decodes`).  So what it answers before it first fails is the longest text
whose units the list begins with (`Decodes.isLongestText`).  UTF-8 and UTF-16 are both of this kind.
-/

namespace JsonDoc

open CharSource

/-! ### Encodings of text -/

/-- No character is written at the beginning of the units. -/
def Malformed {υ : Type} (encode : Char → List υ) (units : List υ) : Prop :=
  ∀ c, ¬ encode c <+: units

/-- The longest text whose units come first in a list. -/
def IsLongestText {υ : Type} (encode : Char → List υ) (units : List υ) (cs : List Char) : Prop :=
  cs.flatMap encode <+: units ∧ ∀ ds : List Char, ds.flatMap encode <+: units → ds <+: cs

/-- What is read from a list of units is what an encoding writes, and where it has written nothing
the source fails. -/
structure Decodes {υ : Type} [CharSource (List υ)] (encode : Char → List υ)
    (failure : υ → SourceError) : Prop where
  answers_nil : answers ([] : List υ) = []
  answers_encode : ∀ c units, answers (encode c ++ units) = .char c :: answers units
  answers_malformed : ∀ unit units, Malformed encode (unit :: units) →
    ∃ rest, answers (unit :: units) = .failed (failure unit) :: rest

section

variable {σ : Type} [CharSource σ] {s s' : σ} {c : Char} {e : SourceError}

theorem answers_of_char (hs : isEmpty s = false) (h : nextChar s = .ok (some c) s') :
    answers s = .char c :: answers s' := by
  rw [answers_of_next hs, next, rest, h]
  rfl

theorem answers_of_failed (hs : isEmpty s = false) (h : nextChar s = .error e s') :
    answers s = .failed e :: answers s' := by
  rw [answers_of_next hs, next, rest, h]
  rfl

end

namespace Decodes

variable {υ : Type} [CharSource (List υ)] {encode : Char → List υ} {failure : υ → SourceError}
  {cs : List Char} {unit : υ} {units : List υ}

theorem answers_append (h : Decodes encode failure) (cs : List Char) (units : List υ) :
    answers (cs.flatMap encode ++ units) = Answer.chars cs ++ answers units := by
  induction cs with
  | nil => rfl
  | cons c cs ih =>
    rw [List.flatMap_cons, List.append_assoc, h.answers_encode, ih]
    rfl

theorem answers_text (h : Decodes encode failure) (cs : List Char) :
    answers (cs.flatMap encode) = answers cs := by
  have hanswers := h.answers_append cs []
  rw [List.append_nil, h.answers_nil, List.append_nil] at hanswers
  rw [hanswers, answers_chars]

theorem encode_ne_nil (h : Decodes encode failure) (c : Char) : encode c ≠ [] := by
  intro hc
  have hanswers := h.answers_encode c []
  rw [hc, List.append_nil, h.answers_nil] at hanswers
  cases hanswers

/-- Units begin with those of a text, up to their end or to where no character is written. -/
theorem exists_text (h : Decodes encode failure) (units : List υ) :
    ∃ cs : List Char, units = cs.flatMap encode ∨
      ∃ unit rest, units = cs.flatMap encode ++ unit :: rest ∧ Malformed encode (unit :: rest) := by
  induction hlen : units.length using Nat.strong_induction_on generalizing units with
  | _ n ih =>
  subst hlen
  by_cases hmal : Malformed encode units
  · cases units with
    | nil => exact ⟨[], Or.inl rfl⟩
    | cons unit rest => exact ⟨[], Or.inr ⟨unit, rest, rfl, hmal⟩⟩
  · obtain ⟨c, hc⟩ := not_forall_not.mp hmal
    obtain ⟨left, rfl⟩ := hc
    have hlt : left.length < (encode c ++ left).length := by
      rw [List.length_append]
      exact Nat.lt_add_of_pos_left (List.length_pos_of_ne_nil (h.encode_ne_nil c))
    obtain ⟨cs, rfl | ⟨unit, rest, rfl, hrest⟩⟩ := ih _ hlt left rfl
    · exact ⟨c :: cs, Or.inl rfl⟩
    · exact ⟨c :: cs, Or.inr ⟨unit, rest, (List.append_assoc _ _ _).symm, hrest⟩⟩

/-- What is written before the units that are malformed is the longest text. -/
theorem isLongestText (h : Decodes encode failure) (hmal : Malformed encode (unit :: units)) :
    IsLongestText encode (cs.flatMap encode ++ unit :: units) cs := by
  refine ⟨List.prefix_append _ _, fun ds ⟨left, hds⟩ => ?_⟩
  obtain ⟨rest, hrest⟩ := h.answers_malformed unit units hmal
  have hanswers := congrArg answers hds
  rw [h.answers_append, h.answers_append, hrest] at hanswers
  rcases List.append_eq_append_iff.mp hanswers with ⟨more, hcs, -⟩ | ⟨more, hds, hfailed⟩
  · obtain ⟨as, bs, rfl, has, -⟩ := List.map_eq_append_iff.mp hcs
    rw [← Answer.chars_injective has]
    exact List.prefix_append _ _
  · obtain ⟨as, bs, rfl, has, rfl⟩ := List.map_eq_append_iff.mp hds
    obtain rfl := Answer.chars_injective has
    -- the source has failed here, so no character follows
    cases bs with
    | nil => exact (List.append_nil as).symm ▸ List.prefix_rfl
    | cons b bs => cases hfailed

end Decodes

/-! ### UTF-8 -/

namespace Utf8

variable {first : UInt8} {tail bytes : List UInt8} {c : Char}

theorem nextByte_cons (b : UInt8) (bytes : List UInt8) :
    (ByteSource.nextByte : EStateM SourceError (List UInt8) _) (b :: bytes) = .ok (some b) bytes :=
  rfl

/-- The bytes that follow are those that are there, if they are enough. -/
theorem readContinuation_list (n : ℕ) (bytes : List UInt8) :
    readContinuation (ByteSource.nextByte : EStateM SourceError (List UInt8) _) n bytes =
      if n ≤ bytes.length then .ok (bytes.take n) (bytes.drop n) else .error .invalidUtf8 [] := by
  induction n generalizing bytes with
  | zero => rfl
  | succ n ih =>
    cases bytes with
    | nil => rfl
    | cons b bytes =>
      rw [readContinuation_succ, nextByte_cons]
      dsimp only
      rw [ih]
      by_cases hn : n ≤ bytes.length
      · rw [if_pos hn, List.length_cons, if_pos (Nat.succ_le_succ hn)]
        rfl
      · rw [if_neg hn, List.length_cons, if_neg fun h => hn (Nat.le_of_succ_le_succ h)]

/-- A byte below `0x80` is a character by itself. -/
theorem encode_ofNat (h : first < 0x80) : encode (Char.ofNat first.toNat) = [first] := by
  have hlt : first.toNat < 0x80 := h
  have hvalid : first.toNat.isValidChar := Or.inl (by omega)
  have hval : (Char.ofNat first.toNat).val.toNat = first.toNat := by
    rw [Char.ofNat, dif_pos hvalid]
    rfl
  rw [encode, String.utf8EncodeChar, hval, if_pos (by omega), UInt8.ofNat_toNat]

/-- The first byte of a character announces how many there are. -/
theorem length_of_encode (h : encode c = first :: bytes) :
    bytes.length = if first < 0x80 then 0 else announcedLength first - 1 := by
  have hmax : c.toNat < 0x110000 := by
    rcases c.valid with h | h <;> (simp at h; omega)
  have hval : c.val.toNat = c.toNat := rfl
  simp only [encode, String.utf8EncodeChar, hval] at h
  split at h
  · obtain ⟨rfl, rfl⟩ := List.cons.inj h
    simp [UInt8.lt_iff_toNat_lt]
    omega
  · split at h
    · obtain ⟨rfl, rfl⟩ := List.cons.inj h
      simp [UInt8.lt_iff_toNat_lt, announcedLength]
      split_ifs <;> omega
    · split at h
      · obtain ⟨rfl, rfl⟩ := List.cons.inj h
        simp [UInt8.lt_iff_toNat_lt, announcedLength]
        split_ifs <;> omega
      · obtain ⟨rfl, rfl⟩ := List.cons.inj h
        simp [UInt8.lt_iff_toNat_lt, announcedLength]
        split_ifs <;> omega

/-- The character that begins with a byte above `0x7F`, from the bytes that it announces. -/
theorem readChar_list (hfirst : ¬ first < 0x80) (bytes : List UInt8) :
    readChar (ByteSource.nextByte : EStateM SourceError (List UInt8) _) first bytes =
      if announcedLength first - 1 ≤ bytes.length then
        match decode? (first :: bytes.take (announcedLength first - 1)) with
        | some c => .ok c (bytes.drop (announcedLength first - 1))
        | none => .error .invalidUtf8 (bytes.drop (announcedLength first - 1))
      else .error .invalidUtf8 [] := by
  rw [readChar_eq, if_neg hfirst, readContinuation_list]
  by_cases hlen : announcedLength first - 1 ≤ bytes.length
  · rewrite [if_pos hlen, if_pos hlen]
    rfl
  · rw [if_neg hlen, if_neg hlen]

/-- The bytes of a character are read as it. -/
theorem readChar_encode (h : encode c = first :: tail) (bytes : List UInt8) :
    readChar (ByteSource.nextByte : EStateM SourceError (List UInt8) _) first (tail ++ bytes) =
      .ok c bytes := by
  have hlen := length_of_encode h
  by_cases hfirst : first < 0x80
  · rw [if_pos hfirst, List.length_eq_zero_iff] at hlen
    subst hlen
    rw [readChar, if_pos hfirst]
    have hc : some (Char.ofNat first.toNat) = some c := by
      rw [← decode?_encode, encode_ofNat hfirst, ← h, decode?_encode]
    cases hc
    rfl
  · rw [if_neg hfirst] at hlen
    rw [readChar_list hfirst, ← hlen, List.take_left, List.drop_left, ← h, decode?_encode,
      if_pos (by simp)]

/-- Bytes that begin with none of a character are refused. -/
theorem exists_readChar_of_malformed (h : Malformed encode (first :: bytes)) :
    ∃ left, readChar (ByteSource.nextByte : EStateM SourceError (List UInt8) _) first bytes =
      .error .invalidUtf8 left := by
  have hfirst : ¬ first < 0x80 := by
    intro hlt
    refine h (Char.ofNat first.toNat) ?_
    rw [encode_ofNat hlt]
    exact ⟨bytes, rfl⟩
  rw [readChar_list hfirst]
  split
  · cases hdecode : decode? (first :: bytes.take (announcedLength first - 1)) with
    | none => exact ⟨_, rfl⟩
    | some c =>
      refine absurd ?_ (h c)
      rw [← decode?_eq_some_iff.mp hdecode]
      have hbytes := List.take_append_drop (announcedLength first - 1) bytes
      exact ⟨bytes.drop (announcedLength first - 1), congrArg (first :: ·) hbytes⟩
  · exact ⟨_, rfl⟩

theorem nextChar_cons (first : UInt8) (bytes : List UInt8) :
    CharSource.nextChar (first :: bytes) =
      match readChar ByteSource.nextByte first bytes with
      | .ok c left => .ok (some c) left
      | .error e left => .error e left := by
  change nextChar ByteSource.nextByte (first :: bytes) = _
  rw [nextChar_eq, nextByte_cons]
  dsimp only
  cases readChar ByteSource.nextByte first bytes <;> rfl

/-- Bytes are read as UTF-8. -/
theorem decodes : Decodes encode fun _ => .invalidUtf8 where
  answers_nil := by
    rw [answers]
    rfl
  answers_encode c bytes := by
    cases hc : encode c with
    | nil =>
      have hsize : (encode c).length = c.utf8Size := String.length_utf8EncodeChar c
      rw [hc] at hsize
      exact absurd hsize (Nat.ne_of_lt c.utf8Size_pos)
    | cons first tail =>
      refine answers_of_char rfl ?_
      rw [List.cons_append, nextChar_cons, readChar_encode hc]
  answers_malformed first bytes hmal := by
    obtain ⟨left, hread⟩ := exists_readChar_of_malformed hmal
    refine ⟨answers left, answers_of_failed rfl ?_⟩
    rw [nextChar_cons, hread]

end Utf8

/-! ### UTF-16 -/

namespace Utf16

open Surrogate

variable {unit lead trail : UInt16} {units : List UInt16} {c : Char}

/-- A unit that is no surrogate is what its character is written as. -/
theorem encode_of_scalar? (h : scalar? unit = some c) : encode c = [unit] := by
  have hlt := unit.toNat_lt
  unfold scalar? at h
  split at h
  · cases h
  · rename_i hsurrogate
    simp only [isLead, isTrail, Bool.or_eq_true, Bool.and_eq_true, decide_eq_true_eq,
      UInt16.le_iff_toNat_le] at hsurrogate
    simp at hsurrogate
    have hvalid : unit.toNat.isValidChar := by
      unfold Nat.isValidChar
      omega
    have hc : c.toNat = unit.toNat := by
      rw [← Option.some.inj h, Char.ofNat, dif_pos hvalid]
      rfl
    rw [encode, split?, if_pos (by omega), hc, UInt16.ofNat_toNat]

theorem scalar?_encode (h : split? c = none) : scalar? (UInt16.ofNat c.toNat) = some c := by
  have hlt : c.toNat < 0x10000 := by
    unfold split? at h
    split at h
    · assumption
    · cases h
  have hunit : (UInt16.ofNat c.toNat).toNat = c.toNat := UInt16.toNat_ofNat_of_lt hlt
  have hsurrogate : ¬ (isLead (UInt16.ofNat c.toNat) || isTrail (UInt16.ofNat c.toNat)) := by
    have hval : c.val.toNat = c.toNat := rfl
    simp only [isLead, isTrail, Bool.or_eq_true, Bool.and_eq_true, decide_eq_true_eq,
      UInt16.le_iff_toNat_le, hunit]
    rcases c.valid with hvalid | hvalid <;> simp at hvalid ⊢ <;> omega
  rw [scalar?, if_neg hsurrogate, hunit, Char.ofNat_toNat]

/-- The first unit of a pair is no character by itself. -/
theorem scalar?_of_combine? (h : combine? lead trail = some c) : scalar? lead = none := by
  unfold combine? at h
  split at h
  · rename_i hpair
    rw [scalar?, if_pos]
    rw [(Bool.and_eq_true _ _).mp hpair |>.1, Bool.true_or]
  · cases h

theorem scalar?_of_malformed (h : Malformed encode (unit :: units)) : scalar? unit = none := by
  cases hc : scalar? unit with
  | none => rfl
  | some c =>
    refine absurd ?_ (h c)
    rw [encode_of_scalar? hc]
    exact ⟨units, rfl⟩

/-- Units that begin with none of a character begin with a surrogate. -/
theorem isSurrogate_of_malformed (h : Malformed encode (unit :: units)) :
    isLead unit || isTrail unit := by
  have hunit := scalar?_of_malformed h
  unfold scalar? at hunit
  split at hunit
  · assumption
  · cases hunit

theorem combine?_of_malformed (h : Malformed encode (lead :: trail :: units)) :
    combine? lead trail = none := by
  cases hc : combine? lead trail with
  | none => rfl
  | some c =>
    refine absurd ?_ (h c)
    rw [encode, split?_of_combine? hc]
    exact ⟨units, rfl⟩

/-- Units are read as UTF-16. -/
theorem decodes : Decodes encode .unpairedSurrogate where
  answers_nil := by
    rw [answers]
    rfl
  answers_encode c units := by
    cases hsplit : split? c with
    | none =>
      rw [encode, hsplit]
      refine answers_of_char rfl ?_
      change nextChar (UInt16.ofNat c.toNat :: units) = _
      unfold nextChar
      simp only [scalar?_encode hsplit]
    | some pair =>
      obtain ⟨lead, trail⟩ := pair
      have hpair := combine?_of_split? hsplit
      rw [encode, hsplit]
      refine answers_of_char rfl ?_
      change nextChar (lead :: trail :: units) = _
      unfold nextChar
      simp only [scalar?_of_combine? hpair, hpair]
  answers_malformed unit units hmal := by
    have hunit := scalar?_of_malformed hmal
    refine ⟨answers units, answers_of_failed rfl ?_⟩
    change nextChar (unit :: units) = _
    unfold nextChar
    simp only [hunit]
    cases units with
    | nil => rfl
    | cons trail units => simp only [combine?_of_malformed hmal]

end Utf16

end JsonDoc
