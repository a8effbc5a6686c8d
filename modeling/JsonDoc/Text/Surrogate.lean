/-!
# Surrogate pairs

A character beyond `U+FFFF` is two code units of 16 bits, a lead surrogate and a trail surrogate,
which each hold ten bits of its distance from `U+10000`.
-/

namespace JsonDoc.Surrogate

/-- The test for a lead surrogate, the first of a pair. -/
def isLead (unit : UInt16) : Bool := 0xD800 ≤ unit && unit ≤ 0xDBFF

/-- The test for a trail surrogate, the second of a pair. -/
def isTrail (unit : UInt16) : Bool := 0xDC00 ≤ unit && unit ≤ 0xDFFF

/-- The character that a pair stands for. -/
def combine? (lead trail : UInt16) : Option Char :=
  if isLead lead && isTrail trail then
    some (Char.ofNat (0x10000 + (lead.toNat - 0xD800) * 0x400 + (trail.toNat - 0xDC00)))
  else none

/-- The pair that stands for a character, if one unit cannot hold it. -/
def split? (c : Char) : Option (UInt16 × UInt16) :=
  if c.toNat < 0x10000 then none
  else
    let distance := c.toNat - 0x10000
    some (UInt16.ofNat (0xD800 + distance / 0x400), UInt16.ofNat (0xDC00 + distance % 0x400))

/-- The character that is a unit by itself, which a surrogate is not. -/
def scalar? (unit : UInt16) : Option Char :=
  if isLead unit || isTrail unit then none else some (Char.ofNat unit.toNat)

/-- The pair of a character stands for it. -/
theorem combine?_of_split? {c : Char} {lead trail : UInt16} (h : split? c = some (lead, trail)) :
    combine? lead trail = some c := by
  unfold split? at h
  split at h
  case isTrue => cases h
  case isFalse hc =>
    have hmax : c.toNat < 0x110000 := by
      have hv : c.val.toNat = c.toNat := rfl
      rcases c.valid with h | h <;> (simp at h; omega)
    obtain ⟨hl, ht⟩ : UInt16.ofNat (0xD800 + (c.toNat - 0x10000) / 0x400) = lead ∧
        UInt16.ofNat (0xDC00 + (c.toNat - 0x10000) % 0x400) = trail := by simpa using h
    have hsize : UInt16.size = 65536 := rfl
    have hl : lead.toNat = 0xD800 + (c.toNat - 0x10000) / 0x400 := by
      rw [← hl]; exact UInt16.toNat_ofNat_of_lt (by omega)
    have ht : trail.toNat = 0xDC00 + (c.toNat - 0x10000) % 0x400 := by
      rw [← ht]; exact UInt16.toNat_ofNat_of_lt (by omega)
    have hn : 0x10000 + (lead.toNat - 0xD800) * 0x400 + (trail.toNat - 0xDC00) = c.toNat := by
      omega
    have hlead : isLead lead = true := by
      simp only [isLead, Bool.and_eq_true, decide_eq_true_eq, UInt16.le_iff_toNat_le]
      simp; omega
    have htrail : isTrail trail = true := by
      simp only [isTrail, Bool.and_eq_true, decide_eq_true_eq, UInt16.le_iff_toNat_le]
      simp; omega
    simp [combine?, hlead, htrail, hn]

/-- The character that a pair stands for is written as the pair. -/
theorem split?_of_combine? {c : Char} {lead trail : UInt16} (h : combine? lead trail = some c) :
    split? c = some (lead, trail) := by
  unfold combine? at h
  split at h
  case isFalse => cases h
  case isTrue hs =>
    simp only [isLead, isTrail, Bool.and_eq_true, decide_eq_true_eq, UInt16.le_iff_toNat_le] at hs
    simp at hs
    have hv : (0x10000 + (lead.toNat - 0xD800) * 0x400 + (trail.toNat - 0xDC00)).isValidChar := by
      right; omega
    have hc : c.toNat = 0x10000 + (lead.toNat - 0xD800) * 0x400 + (trail.toNat - 0xDC00) := by
      rw [← Option.some.inj h, Char.ofNat, dif_pos hv]
      rfl
    have hl : 0xD800 + (c.toNat - 0x10000) / 0x400 = lead.toNat := by omega
    have ht : 0xDC00 + (c.toNat - 0x10000) % 0x400 = trail.toNat := by omega
    have hb : ¬ c.toNat < 0x10000 := by omega
    simp [split?, hb, hl, ht]

end JsonDoc.Surrogate
