import JsonDoc.Dump.Quotation
import JsonDoc.Proofs.Token.StringLiteral

/-!
# The text of strings is a spelling of them

What is written for a character stands for that character wherever it is written
(`spellsString_charPieces`), so a string that is written is spelled (`exists_spellsString`).
-/

namespace JsonDoc

namespace Hex

theorem spellsUnit_encode (unit : UInt16) : SpellsUnit (encode unit) unit.toNat :=
  spellsUnit_of_decode? (decode?_encode unit)

end Hex

namespace Dump

variable {c : Char} {t s : List Char}

theorem flatten_singles (cs : List Char) : (Piece.singles cs).flatten = cs := by
  induction cs with
  | nil => rfl
  | cons c cs ih => exact congrArg (c :: ·) ih

theorem flatten_unitPieces (unit : UInt16) :
    (unitPieces unit).flatten = '\\' :: 'u' :: Hex.encode unit := by
  rw [unitPieces, List.flatten_cons, flatten_singles]
  rfl

/-- The escapes of the code units of a character are a spelling of it. -/
theorem spellsString_unitPieces (c : Char) (h : SpellsString t s) :
    SpellsString (((Utf16.encode c).flatMap unitPieces).flatten ++ t) (c :: s) := by
  unfold Utf16.encode
  split
  case h_1 lead trail hsplit =>
    obtain ⟨hlead, htrail, hc⟩ :=
      Surrogate.combine?_eq_some_iff.mp (Surrogate.combine?_of_split? hsplit)
    have hpair := SpellsString.pair (Hex.spellsUnit_encode lead) (Hex.spellsUnit_encode trail)
      hlead htrail hc h
    simpa [flatten_unitPieces] using hpair
  case h_2 hsplit =>
    have hsize : UInt16.size = 0x10000 := rfl
    have hsmall : c.toNat < UInt16.size := by
      unfold Surrogate.split? at hsplit
      split at hsplit
      case isTrue hc => rwa [hsize]
      case isFalse => cases hsplit
    have hunit := Hex.spellsUnit_encode (UInt16.ofNat c.toNat)
    rw [UInt16.toNat_ofNat_of_lt' hsmall] at hunit
    simpa [flatten_unitPieces] using SpellsString.unit hunit h

/-- What is written for a character is a spelling of it. -/
theorem spellsString_charPieces (escapeUnicode : Bool) (c : Char) (h : SpellsString t s) :
    SpellsString ((charPieces escapeUnicode c).flatten ++ t) (c :: s) := by
  unfold charPieces
  split
  case h_8 hquote hslash _ _ _ _ _ =>
    split
    case isTrue => exact spellsString_unitPieces c h
    case isFalse hplain =>
      refine SpellsString.plain hquote hslash ?_ h
      simp only [Bool.or_eq_true, decide_eq_true_eq, not_or] at hplain
      have hcontrol : ¬ c.toNat ≤ 0x1f := hplain.1
      omega
  all_goals exact SpellsString.short (by decide) h

theorem spellsString_chars (escapeUnicode : Bool) (s : List Char) :
    SpellsString (s.flatMap (charPieces escapeUnicode)).flatten s := by
  induction s with
  | nil => exact .nil
  | cons c s ih =>
    rw [List.flatMap_cons, List.flatten_append]
    exact spellsString_charPieces escapeUnicode c ih

/-- A string is written between quotes, by characters that spell it. -/
theorem exists_spellsString (escapeUnicode : Bool) (s : String) :
    ∃ t, (stringPieces escapeUnicode s).flatten = '"' :: (t ++ ['"']) ∧ SpellsString t s.toList :=
  ⟨_, by simp [stringPieces], spellsString_chars escapeUnicode s.toList⟩

end Dump

end JsonDoc
