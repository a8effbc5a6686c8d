import Mathlib.Tactic
import JsonDoc.Proofs.Token.Text

/-!
# String literals

The grammar of what stands between the quotes of a string, as a relation between the characters that
spell a string and those that it has (`SpellsString`).  A surrogate is spelled only together with
the other of its pair.  `read_string` reads all that the grammar allows, and `exists_string` finds
the spelling of every string that was read.
-/

namespace JsonDoc

/-! ### Spelling -/

/-- The character is the hexadecimal digit of a value, in either case. -/
def IsHexDigit (c : Char) (v : ℕ) : Prop := v < 16 ∧ (c = v.digitChar ∨ c = v.digitChar.toUpper)

/-- Four hexadecimal digits spell a code unit. -/
inductive SpellsUnit : List Char → ℕ → Prop
  | digits {c₁ c₂ c₃ c₄ : Char} {v₁ v₂ v₃ v₄ : ℕ} (h₁ : IsHexDigit c₁ v₁) (h₂ : IsHexDigit c₂ v₂)
      (h₃ : IsHexDigit c₃ v₃) (h₄ : IsHexDigit c₄ v₄) :
      SpellsUnit [c₁, c₂, c₃, c₄] (((v₁ * 16 + v₂) * 16 + v₃) * 16 + v₄)

/-- The characters after a backslash, each with the character that the escape stands for. -/
def shortEscapes : List (Char × Char) :=
  [('"', '"'), ('\\', '\\'), ('/', '/'), ('b', '\x08'), ('f', '\x0c'), ('n', '\n'), ('r', '\r'),
    ('t', '\t')]

/-- Characters between quotes spell the characters of a string. -/
inductive SpellsString : List Char → List Char → Prop
  | nil : SpellsString [] []
  | plain {c : Char} {t s : List Char} (hquote : c ≠ '"') (hslash : c ≠ '\\')
      (hcontrol : 0x20 ≤ c.toNat) (h : SpellsString t s) : SpellsString (c :: t) (c :: s)
  | short {c d : Char} {t s : List Char} (hc : (c, d) ∈ shortEscapes) (h : SpellsString t s) :
      SpellsString ('\\' :: c :: t) (d :: s)
  | unit {c : Char} {ds t s : List Char} (hds : SpellsUnit ds c.toNat) (h : SpellsString t s) :
      SpellsString ('\\' :: 'u' :: (ds ++ t)) (c :: s)
  | pair {c : Char} {lead trail : ℕ} {ds es t s : List Char} (hds : SpellsUnit ds lead)
      (hes : SpellsUnit es trail) (hlead : 0xD800 ≤ lead ∧ lead ≤ 0xDBFF)
      (htrail : 0xDC00 ≤ trail ∧ trail ≤ 0xDFFF)
      (hc : c.toNat = 0x10000 + (lead - 0xD800) * 0x400 + (trail - 0xDC00))
      (h : SpellsString t s) :
      SpellsString ('\\' :: 'u' :: (ds ++ '\\' :: 'u' :: (es ++ t))) (c :: s)

/-! ### Code units -/

theorem toNat_digitChar : ∀ v < 16, v.digitChar.toNat = if v < 10 then v + 48 else v + 87 := by
  decide

theorem toNat_toUpper_digitChar :
    ∀ v < 16, v.digitChar.toUpper.toNat = if v < 10 then v + 48 else v + 55 := by decide

theorem digit?_eq_some_iff {c : Char} {v : ℕ} : Hex.digit? c = some v ↔ IsHexDigit c v := by
  constructor
  · intro h
    have h₀ : '0'.toNat = 48 ∧ '9'.toNat = 57 ∧ 'a'.toNat = 97 ∧ 'f'.toNat = 102 ∧
        'A'.toNat = 65 ∧ 'F'.toNat = 70 := by decide
    simp only [Hex.digit?, Char.le_def, UInt32.le_iff_toNat_le, Char.toNat_val] at h
    have hv : v < 16 := by split_ifs at h <;> cases h <;> omega
    have hlow := toNat_digitChar v hv
    have hupp := toNat_toUpper_digitChar v hv
    refine ⟨hv, ?_⟩
    rw [← Char.toNat_inj, ← Char.toNat_inj, hlow, hupp]
    split_ifs at h <;> cases h <;> split_ifs <;> omega
  · rintro ⟨hv, hc⟩
    have h : ∀ v < 16, Hex.digit? v.digitChar = some v ∧
        Hex.digit? v.digitChar.toUpper = some v := by decide
    rcases hc with rfl | rfl
    · exact (h v hv).1
    · exact (h v hv).2

theorem SpellsUnit.exists_eq {ds : List Char} {n : ℕ} (h : SpellsUnit ds n) :
    ∃ c₁ c₂ c₃ c₄, ds = [c₁, c₂, c₃, c₄] := by
  cases h
  exact ⟨_, _, _, _, rfl⟩

theorem SpellsUnit.length_eq {ds : List Char} {n : ℕ} (h : SpellsUnit ds n) : ds.length = 4 := by
  cases h
  rfl

theorem exists_decode? {ds : List Char} {n : ℕ} (h : SpellsUnit ds n) :
    ∃ unit : UInt16, Hex.decode? ds = some unit ∧ unit.toNat = n := by
  obtain ⟨h₁, h₂, h₃, h₄⟩ := h
  refine ⟨_, ?_, UInt16.toNat_ofNat_of_lt' ?_⟩
  · simp only [Hex.decode?, List.mapM_cons, List.mapM_nil, digit?_eq_some_iff.mpr h₁,
      digit?_eq_some_iff.mpr h₂, digit?_eq_some_iff.mpr h₃, digit?_eq_some_iff.mpr h₄, bind,
      Option.bind, pure]
  · have := h₁.1
    have := h₂.1
    have := h₃.1
    have := h₄.1
    have hsize : UInt16.size = 65536 := rfl
    omega

theorem spellsUnit_of_decode? {c₁ c₂ c₃ c₄ : Char} {unit : UInt16}
    (h : Hex.decode? [c₁, c₂, c₃, c₄] = some unit) :
    SpellsUnit [c₁, c₂, c₃, c₄] unit.toNat := by
  cases h₁ : Hex.digit? c₁ <;> cases h₂ : Hex.digit? c₂ <;> cases h₃ : Hex.digit? c₃ <;>
    cases h₄ : Hex.digit? c₄ <;>
    simp only [Hex.decode?, List.mapM_cons, List.mapM_nil, h₁, h₂, h₃, h₄, bind, Option.bind, pure,
      reduceCtorEq, Option.some.injEq] at h
  rename_i v₁ v₂ v₃ v₄
  rw [digit?_eq_some_iff] at h₁ h₂ h₃ h₄
  have hspell := SpellsUnit.digits h₁ h₂ h₃ h₄
  have hn : unit.toNat = ((v₁ * 16 + v₂) * 16 + v₃) * 16 + v₄ := by
    have hlt : ((v₁ * 16 + v₂) * 16 + v₃) * 16 + v₄ < UInt16.size := by
      have := h₁.1
      have := h₂.1
      have := h₃.1
      have := h₄.1
      have hsize : UInt16.size = 65536 := rfl
      omega
    rw [← h]
    exact UInt16.toNat_ofNat_of_lt' hlt
  rw [hn]
  exact hspell

namespace Surrogate

theorem isLead_iff {unit : UInt16} :
    isLead unit = true ↔ 0xD800 ≤ unit.toNat ∧ unit.toNat ≤ 0xDBFF := by
  simp only [isLead, Bool.and_eq_true, decide_eq_true_eq, UInt16.le_iff_toNat_le]
  rfl

theorem isTrail_iff {unit : UInt16} :
    isTrail unit = true ↔ 0xDC00 ≤ unit.toNat ∧ unit.toNat ≤ 0xDFFF := by
  simp only [isTrail, Bool.and_eq_true, decide_eq_true_eq, UInt16.le_iff_toNat_le]
  rfl

/-- A character lies outside of the surrogates. -/
theorem toNat_bounds (c : Char) : c.toNat < 0xD800 ∨ 0xDFFF < c.toNat ∧ c.toNat < 0x110000 :=
  c.valid

theorem toNat_charOfNat {n : ℕ} (h : n.isValidChar) : (Char.ofNat n).toNat = n := by
  rw [Char.ofNat, dif_pos h]
  rfl

theorem scalar?_eq_some_iff {unit : UInt16} {c : Char} :
    scalar? unit = some c ↔ c.toNat = unit.toNat := by
  have hc := toNat_bounds c
  have hlead := @isLead_iff unit
  have htrail := @isTrail_iff unit
  have hunit := unit.toNat_lt
  unfold scalar?
  split
  case isTrue h =>
    rw [Bool.or_eq_true, hlead, htrail] at h
    simp only [reduceCtorEq, false_iff]
    omega
  case isFalse h =>
    rw [Bool.or_eq_true, hlead, htrail] at h
    have hv : (Char.ofNat unit.toNat).toNat = unit.toNat :=
      toNat_charOfNat (by unfold Nat.isValidChar; omega)
    rw [Option.some.injEq, ← Char.toNat_inj, hv, eq_comm]

theorem combine?_eq_some_iff {lead trail : UInt16} {c : Char} :
    combine? lead trail = some c ↔ (0xD800 ≤ lead.toNat ∧ lead.toNat ≤ 0xDBFF) ∧
      (0xDC00 ≤ trail.toNat ∧ trail.toNat ≤ 0xDFFF) ∧
      c.toNat = 0x10000 + (lead.toNat - 0xD800) * 0x400 + (trail.toNat - 0xDC00) := by
  rw [← isLead_iff, ← isTrail_iff, ← and_assoc, ← Bool.and_eq_true]
  unfold combine?
  split
  case isTrue h =>
    have h' := h
    rw [Bool.and_eq_true, isLead_iff, isTrail_iff] at h'
    have hv : (Char.ofNat (0x10000 + (lead.toNat - 0xD800) * 0x400 + (trail.toNat - 0xDC00))).toNat
        = 0x10000 + (lead.toNat - 0xD800) * 0x400 + (trail.toNat - 0xDC00) :=
      toNat_charOfNat (by unfold Nat.isValidChar; omega)
    rw [Option.some.injEq, ← Char.toNat_inj, hv, eq_comm]
    exact ⟨fun hc => ⟨h, hc⟩, fun hc => hc.2⟩
  case isFalse h =>
    simp only [reduceCtorEq, false_iff]
    exact fun hc => h hc.1

end Surrogate

/-! ### Reading -/

theorem shortEscape?_eq_some_iff {c d : Char} :
    StringState.shortEscape? c = some d ↔ (c, d) ∈ shortEscapes := by
  constructor
  · intro h
    unfold StringState.shortEscape? at h
    split at h <;> cases h <;> decide
  · have h : ∀ p ∈ shortEscapes, StringState.shortEscape? p.1 = some p.2 := by decide
    exact h (c, d)

namespace TokenState

variable {s s' : StringState} {rev t u v : List Char} {c d : Char} {k : ℕ}

theorem read_string_of_shift (h : s.step c = .shift s') :
    (string s).read (c :: u) k = (string s').read u (k + 1) := by
  apply read_of_shift
  rw [step, h]
  rfl

/-- The state after a backslash and the character of a short escape. -/
theorem read_short (hc : (c, d) ∈ shortEscapes) (rev u : List Char) (k : ℕ) :
    (string ⟨rev, .outside⟩).read ('\\' :: c :: u) k =
      (string ⟨d :: rev, .outside⟩).read u (k + 2) := by
  have hu : c ≠ 'u' := by
    rintro rfl
    exact absurd (shortEscape?_eq_some_iff.mpr hc) (by simp [StringState.shortEscape?])
  have hstep : StringState.step ⟨rev, .backslash⟩ c = .shift ⟨d :: rev, .outside⟩ := by
    simp only [StringState.step, hu, if_false, shortEscape?_eq_some_iff.mpr hc]
    rfl
  rw [read_string_of_shift (show StringState.step ⟨rev, .outside⟩ '\\' =
    .shift ⟨rev, .backslash⟩ from rfl), read_string_of_shift hstep]

/-- The digits of a code unit are taken together. -/
theorem read_unit (rev : List Char) (c₁ c₂ c₃ c₄ : Char) (u : List Char) (k : ℕ) :
    (string ⟨rev, .outside⟩).read ('\\' :: 'u' :: c₁ :: c₂ :: c₃ :: c₄ :: u) k =
      resolve ⟨Answer.chars (c₄ :: u), k + 5, true⟩ ⟨Answer.chars u, k + 6, false⟩
        (fun s => s.read u (k + 6))
        ((StringState.closeUnit ⟨rev, .unit [c₁, c₂, c₃]⟩ [c₁, c₂, c₃, c₄]).map string) := rfl

/-- And so are those of the unit after a lead surrogate. -/
theorem read_trail (rev : List Char) (lead : UInt16) (c₁ c₂ c₃ c₄ : Char) (u : List Char)
    (k : ℕ) :
    (string ⟨rev, .lead lead⟩).read ('\\' :: 'u' :: c₁ :: c₂ :: c₃ :: c₄ :: u) k =
      resolve ⟨Answer.chars (c₄ :: u), k + 5, true⟩ ⟨Answer.chars u, k + 6, false⟩
        (fun s => s.read u (k + 6))
        ((StringState.closePair ⟨rev, .trail lead [c₁, c₂, c₃]⟩ lead [c₁, c₂, c₃, c₄]).map
          string) := rfl

theorem read_scalar {ds : List Char} (hds : SpellsUnit ds c.toNat) (rev u : List Char) (k : ℕ) :
    (string ⟨rev, .outside⟩).read ('\\' :: 'u' :: (ds ++ u)) k =
      (string ⟨c :: rev, .outside⟩).read u (k + 6) := by
  obtain ⟨unit, hdecode, hunit⟩ := exists_decode? hds
  have hlead : Surrogate.isLead unit = false := by
    rw [← Bool.not_eq_true, Surrogate.isLead_iff, hunit]
    have := Surrogate.toNat_bounds c
    omega
  have hscalar := Surrogate.scalar?_eq_some_iff.mpr hunit.symm
  obtain ⟨c₁, c₂, c₃, c₄, rfl⟩ := hds.exists_eq
  simp only [List.cons_append, List.nil_append]
  rw [read_unit, StringState.closeUnit, hdecode]
  dsimp only
  rw [hlead, hscalar]
  rfl

theorem read_pair {lead trail : ℕ} {ds es : List Char} (hds : SpellsUnit ds lead)
    (hes : SpellsUnit es trail) (hlead : 0xD800 ≤ lead ∧ lead ≤ 0xDBFF)
    (htrail : 0xDC00 ≤ trail ∧ trail ≤ 0xDFFF)
    (hc : c.toNat = 0x10000 + (lead - 0xD800) * 0x400 + (trail - 0xDC00)) (rev u : List Char)
    (k : ℕ) :
    (string ⟨rev, .outside⟩).read ('\\' :: 'u' :: (ds ++ '\\' :: 'u' :: (es ++ u))) k =
      (string ⟨c :: rev, .outside⟩).read u (k + 12) := by
  obtain ⟨first, hfirst, rfl⟩ := exists_decode? hds
  obtain ⟨second, hsecond, rfl⟩ := exists_decode? hes
  have hcombine := Surrogate.combine?_eq_some_iff.mpr ⟨hlead, htrail, hc⟩
  have hunit : (string ⟨rev, .outside⟩).read
      ('\\' :: 'u' :: (ds ++ '\\' :: 'u' :: (es ++ u))) k =
      (string ⟨rev, .lead first⟩).read ('\\' :: 'u' :: (es ++ u)) (k + 6) := by
    generalize '\\' :: 'u' :: (es ++ u) = w
    obtain ⟨c₁, c₂, c₃, c₄, rfl⟩ := hds.exists_eq
    simp only [List.cons_append, List.nil_append]
    rw [read_unit, StringState.closeUnit, hfirst]
    dsimp only
    rw [if_pos (Surrogate.isLead_iff.mpr hlead)]
    rfl
  rw [hunit]
  obtain ⟨c₁, c₂, c₃, c₄, rfl⟩ := hes.exists_eq
  simp only [List.cons_append, List.nil_append]
  rw [read_trail, StringState.closePair, hsecond]
  dsimp only
  rw [hcombine]
  rfl

/-- What spells a string is read as it, up to the closing quote. -/
theorem read_string (h : SpellsString t v) (rev u : List Char) (k : ℕ) :
    (string ⟨rev, .outside⟩).read (t ++ '"' :: u) k =
      .ok (.string (String.ofList (rev.reverse ++ v)))
        ⟨Answer.chars u, k + t.length + 1, false⟩ := by
  induction h generalizing rev k with
  | nil =>
    rw [List.append_nil]
    rfl
  | @plain c t s hquote hslash hcontrol h ih =>
    have hle : ¬ c ≤ '\x1f' := by
      rw [Char.le_def, UInt32.le_iff_toNat_le]
      exact not_le.mpr (show '\x1f'.toNat < c.toNat from Nat.lt_of_succ_le hcontrol)
    have hstep : StringState.step ⟨rev, .outside⟩ c = .shift ⟨c :: rev, .outside⟩ := by
      simp only [StringState.step, hquote, hslash, hle, if_false]
      rfl
    rw [List.cons_append, read_string_of_shift hstep, ih, List.length_cons, List.reverse_cons,
      List.append_assoc, List.singleton_append, Nat.add_assoc k 1, Nat.add_comm 1]
  | @short c d t s hc h ih =>
    rw [List.cons_append, List.cons_append, read_short hc, ih, List.reverse_cons,
      List.append_assoc, List.singleton_append, List.length_cons, List.length_cons,
      Nat.add_assoc k 2, Nat.add_comm 2]
  | @unit c ds t s hds h ih =>
    rw [List.cons_append, List.cons_append, List.append_assoc, read_scalar hds, ih,
      List.reverse_cons, List.append_assoc, List.singleton_append]
    simp only [List.length_cons, List.length_append, hds.length_eq]
    congr 2
    omega
  | @pair c lead trail ds es t s hds hes hlead htrail hc h ih =>
    have happ : '\\' :: 'u' :: (ds ++ '\\' :: 'u' :: (es ++ t)) ++ '"' :: u =
        '\\' :: 'u' :: (ds ++ '\\' :: 'u' :: (es ++ (t ++ '"' :: u))) := by
      simp only [List.cons_append, List.append_assoc]
    rw [happ, read_pair hds hes hlead htrail hc, ih, List.reverse_cons, List.append_assoc,
      List.singleton_append]
    simp only [List.length_cons, List.length_append, hds.length_eq, hes.length_eq]
    congr 2
    omega

/-! ### Finding the spelling -/

variable {tok : Token} {cur : Cursor}

/-- The text begins with the spelling of a character, after which the string is read on. -/
def BeginsCharacter (rev v : List Char) (tok : Token) (cur : Cursor) : Prop :=
  ∃ (e : List Char) (d : Char) (w : List Char) (m : ℕ), v = e ++ w ∧ e ≠ [] ∧
    (∀ t s, SpellsString t s → SpellsString (e ++ t) (d :: s)) ∧
    (string ⟨d :: rev, .outside⟩).read w m = .ok tok cur

/-- After a lead surrogate there is the escape of the other of its pair. -/
theorem exists_trail_escape {lead : UInt16}
    (h : (string ⟨rev, .lead lead⟩).read v k = .ok tok cur) :
    ∃ (es : List Char) (trail : UInt16) (c : Char) (w : List Char) (m : ℕ),
      v = '\\' :: 'u' :: (es ++ w) ∧ SpellsUnit es trail.toNat ∧
      Surrogate.combine? lead trail = some c ∧
      (string ⟨c :: rev, .outside⟩).read w m = .ok tok cur := by
  rcases v with _ | ⟨b, v⟩
  · cases h
  have hb : b = '\\' := by
    by_contra hb
    rw [read_cons, step, StringState.step] at h
    simp only [hb, if_false] at h
    cases h
  subst hb
  rcases v with _ | ⟨b, v⟩
  · cases h
  have hb : b = 'u' := by
    by_contra hb
    rw [read_string_of_shift (show StringState.step ⟨rev, .lead lead⟩ '\\' =
      .shift ⟨rev, .leadBackslash lead⟩ from rfl), read_cons, step, StringState.step] at h
    simp only [hb, if_false] at h
    cases h
  subst hb
  rcases v with _ | ⟨b₁, _ | ⟨b₂, _ | ⟨b₃, _ | ⟨b₄, v⟩⟩⟩⟩
  iterate 4 cases h
  rw [read_trail, StringState.closePair] at h
  cases hdecode : Hex.decode? [b₁, b₂, b₃, b₄] with
  | none =>
    rw [hdecode] at h
    cases h
  | some trail =>
    rw [hdecode] at h
    dsimp only at h
    cases hc : Surrogate.combine? lead trail with
    | none =>
      rw [hc] at h
      cases h
    | some c =>
      rw [hc] at h
      exact ⟨[b₁, b₂, b₃, b₄], trail, c, v, _, rfl, spellsUnit_of_decode? hdecode, hc, h⟩

/-- The escape of a code unit, with that of the other of its pair if it is a lead surrogate. -/
theorem beginsCharacter_of_unit
    (h : (string ⟨rev, .outside⟩).read ('\\' :: 'u' :: v) k = .ok tok cur) :
    BeginsCharacter rev ('\\' :: 'u' :: v) tok cur := by
  rcases v with _ | ⟨c₁, _ | ⟨c₂, _ | ⟨c₃, _ | ⟨c₄, v⟩⟩⟩⟩
  iterate 4 cases h
  rw [read_unit, StringState.closeUnit] at h
  cases hdecode : Hex.decode? [c₁, c₂, c₃, c₄] with
  | none =>
    rw [hdecode] at h
    cases h
  | some lead =>
    rw [hdecode] at h
    dsimp only at h
    have hds := spellsUnit_of_decode? hdecode
    by_cases hl : Surrogate.isLead lead = true
    · rw [if_pos hl] at h
      obtain ⟨es, trail, c, w, m, rfl, hes, hc, hread⟩ := exists_trail_escape h
      obtain ⟨hlead, htrail, hvalue⟩ := Surrogate.combine?_eq_some_iff.mp hc
      exact ⟨'\\' :: 'u' :: ([c₁, c₂, c₃, c₄] ++ '\\' :: 'u' :: es), c, w, m, by simp, by simp,
        fun t s hs => by simpa using SpellsString.pair hds hes hlead htrail hvalue hs, hread⟩
    · rw [if_neg hl] at h
      cases hc : Surrogate.scalar? lead with
      | none =>
        rw [hc] at h
        cases h
      | some c =>
        rw [hc] at h
        rw [← Surrogate.scalar?_eq_some_iff.mp hc] at hds
        exact ⟨['\\', 'u', c₁, c₂, c₃, c₄], c, v, _, rfl, by simp,
          fun t s hs => .unit hds hs, h⟩

/-- What is read of a string before its closing quote begins with the spelling of a character. -/
theorem beginsCharacter (hquote : c ≠ '"')
    (h : (string ⟨rev, .outside⟩).read (c :: v) k = .ok tok cur) :
    BeginsCharacter rev (c :: v) tok cur := by
  by_cases hslash : c = '\\'
  · subst hslash
    rcases v with _ | ⟨d, v⟩
    · cases h
    by_cases hu : d = 'u'
    · subst hu
      exact beginsCharacter_of_unit h
    cases hd : StringState.shortEscape? d with
    | none =>
      rw [read_string_of_shift (show StringState.step ⟨rev, .outside⟩ '\\' =
        .shift ⟨rev, .backslash⟩ from rfl), read_cons, step, StringState.step] at h
      simp only [hu, if_false, hd] at h
      cases h
    | some e =>
      have hmem := shortEscape?_eq_some_iff.mp hd
      rw [read_short hmem] at h
      exact ⟨['\\', d], e, v, _, rfl, by simp, fun t s hs => .short hmem hs, h⟩
  · by_cases hcontrol : c ≤ '\x1f'
    · rw [read_cons, step, StringState.step] at h
      simp only [hquote, hslash, hcontrol, if_false, if_true] at h
      cases h
    · have hstep : StringState.step ⟨rev, .outside⟩ c = .shift ⟨c :: rev, .outside⟩ := by
        simp only [StringState.step, hquote, hslash, hcontrol, if_false]
        rfl
      rw [read_string_of_shift hstep] at h
      rw [Char.le_def, UInt32.le_iff_toNat_le, not_le] at hcontrol
      exact ⟨[c], c, v, _, rfl, by simp, fun t s hs => .plain hquote hslash hcontrol hs, h⟩

/-- A string that is read has its spelling at the front of the text. -/
theorem exists_string (h : (string ⟨rev, .outside⟩).read v k = .ok tok cur) :
    ∃ t s u, v = t ++ '"' :: u ∧ SpellsString t s := by
  induction hn : v.length using Nat.strong_induction_on generalizing rev v k with
  | _ n ih =>
    rcases v with _ | ⟨c, v⟩
    · cases h
    by_cases hquote : c = '"'
    · subst hquote
      exact ⟨[], [], v, rfl, .nil⟩
    obtain ⟨e, d, w, m, hv, hne, hspell, hread⟩ := beginsCharacter hquote h
    have hlen : w.length < n := by
      have := congrArg List.length hv
      have := List.length_pos_iff.mpr hne
      rw [List.length_append] at *
      omega
    obtain ⟨t, s, u, rfl, hs⟩ := ih w.length hlen hread rfl
    exact ⟨e ++ t, d :: s, u, by rw [hv, List.append_assoc], hspell t s hs⟩

end TokenState

end JsonDoc
