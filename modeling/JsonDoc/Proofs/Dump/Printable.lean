import JsonDoc.Proofs.Dump.Arrangement

/-!
# The characters that are written

Between the breaks of lines no control is written, and with escapes nothing but the characters of
ASCII that can be printed (`isPrintable_tokenText`): any other character of a string is written as
the escapes of its code units (`escapesChar_charPieces`).  Together this says what can be expected
of the text of a value (`Value.dumpWith_printable`).
-/

namespace JsonDoc

/-- The character is no control, and where only ASCII is asked for, it is printed there. -/
def IsPrintable (ascii : Bool) (c : Char) : Prop := 0x20 ≤ c.toNat ∧ (ascii → c.toNat ≤ 0x7E)

/-! ### Escapes -/

/-- The text is a backslash, the letter `u` and the four digits of a code unit in small letters. -/
inductive EscapesUnit : List Char → ℕ → Prop
  | digits {v₁ v₂ v₃ v₄ : ℕ} (h₁ : v₁ < 16) (h₂ : v₂ < 16) (h₃ : v₃ < 16) (h₄ : v₄ < 16) :
      EscapesUnit ['\\', 'u', v₁.digitChar, v₂.digitChar, v₃.digitChar, v₄.digitChar]
        (((v₁ * 16 + v₂) * 16 + v₃) * 16 + v₄)

/-- The text is the escape of a character of one code unit, or those of the lead surrogate and the
trail surrogate of a character. -/
inductive EscapesChar : List Char → Char → Prop
  | unit {t : List Char} {c : Char} (hc : c.toNat < 0x10000) (ht : EscapesUnit t c.toNat) :
      EscapesChar t c
  | pair {t u : List Char} {c : Char} {lead trail : ℕ} (ht : EscapesUnit t lead)
      (hu : EscapesUnit u trail) (hlead : 0xD800 ≤ lead ∧ lead ≤ 0xDBFF)
      (htrail : 0xDC00 ≤ trail ∧ trail ≤ 0xDFFF)
      (hc : c.toNat = 0x10000 + (lead - 0xD800) * 0x400 + (trail - 0xDC00)) : EscapesChar (t ++ u) c

namespace Dump

theorem escapesUnit_unitPieces (unit : UInt16) :
    EscapesUnit (unitPieces unit).flatten unit.toNat := by
  have hlt : ∀ n : ℕ, n % 16 < 16 := fun n => Nat.mod_lt n (by decide)
  have hu : unit.toNat < 65536 := unit.toNat_lt
  have hvalue : ((unit.toNat / 4096 % 16 * 16 + unit.toNat / 256 % 16) * 16 +
      unit.toNat / 16 % 16) * 16 + unit.toNat % 16 = unit.toNat := by omega
  have h := EscapesUnit.digits (hlt (unit.toNat / 4096)) (hlt (unit.toNat / 256))
    (hlt (unit.toNat / 16)) (hlt unit.toNat)
  rw [hvalue] at h
  rw [flatten_unitPieces]
  exact h

/-- A character is escaped by its code units. -/
theorem escapesChar_unitPieces (c : Char) :
    EscapesChar ((Utf16.encode c).flatMap unitPieces).flatten c := by
  unfold Utf16.encode
  split
  case h_1 lead trail hsplit =>
    obtain ⟨hlead, htrail, hc⟩ :=
      Surrogate.combine?_eq_some_iff.mp (Surrogate.combine?_of_split? hsplit)
    rw [List.flatMap_cons, List.flatMap_singleton, List.flatten_append]
    exact .pair (escapesUnit_unitPieces lead) (escapesUnit_unitPieces trail) hlead htrail hc
  case h_2 hsplit =>
    have hsmall : c.toNat < 0x10000 := by
      unfold Surrogate.split? at hsplit
      split at hsplit
      case isTrue hc => exact hc
      case isFalse => cases hsplit
    have hunit := escapesUnit_unitPieces (UInt16.ofNat c.toNat)
    rw [UInt16.toNat_ofNat_of_lt' hsmall] at hunit
    rw [List.flatMap_singleton]
    exact .unit hsmall hunit

/-- If it is asked for, every character beyond those of ASCII that are printed is escaped. -/
theorem escapesChar_charPieces {c : Char} (hc : 0x7E < c.toNat) :
    EscapesChar (charPieces true c).flatten c := by
  unfold charPieces
  split
  case h_8 =>
    have hescape : (c ≤ '\x1f' || true && '\x7f' ≤ c) = true := by
      have hle : '\x7f' ≤ c := hc
      simp [hle]
    rw [if_pos hescape]
    exact escapesChar_unitPieces c
  all_goals exact absurd hc (by decide)

end Dump

/-! ### Characters -/

section

variable {t u : List Char} {c : Char}

/-- What is printed in ASCII is printable whatever is asked for. -/
theorem isPrintable_of_bounds (ascii : Bool) (ht : ∀ c ∈ t, 0x20 ≤ c.toNat ∧ c.toNat ≤ 0x7E) :
    ∀ c ∈ t, IsPrintable ascii c :=
  fun c hc => ⟨(ht c hc).1, fun _ => (ht c hc).2⟩

theorem bounds_of_all (h : t.all (fun c => 0x20 ≤ c.toNat && c.toNat ≤ 0x7E) = true) :
    ∀ c ∈ t, 0x20 ≤ c.toNat ∧ c.toNat ≤ 0x7E := by
  simpa only [List.all_eq_true, Bool.and_eq_true, decide_eq_true_eq] using h

theorem bounds_digitChar : ∀ v < 16, 0x20 ≤ v.digitChar.toNat ∧ v.digitChar.toNat ≤ 0x7E := by
  decide

theorem IsNumeric.bounds (hc : IsNumeric c) : 0x20 ≤ c.toNat ∧ c.toNat ≤ 0x7E := by
  rcases hc with hc | hc
  · obtain ⟨hlow, hhigh⟩ := (Decimal.isDigit_iff c).mp hc
    have hlow : 48 ≤ c.toNat := hlow
    have hhigh : c.toNat ≤ 57 := hhigh
    omega
  · exact @bounds_of_all ['-', '+', '.', 'e', 'E'] (by decide) c hc

theorem EscapesUnit.bounds {n : ℕ} (h : EscapesUnit t n) :
    ∀ c ∈ t, 0x20 ≤ c.toNat ∧ c.toNat ≤ 0x7E := by
  obtain ⟨h₁, h₂, h₃, h₄⟩ := h
  simp only [List.forall_mem_cons, List.not_mem_nil, false_imp_iff, implies_true, and_true]
  exact ⟨by decide, by decide, bounds_digitChar _ h₁, bounds_digitChar _ h₂, bounds_digitChar _ h₃,
    bounds_digitChar _ h₄⟩

theorem EscapesChar.bounds (h : EscapesChar t c) : ∀ d ∈ t, 0x20 ≤ d.toNat ∧ d.toNat ≤ 0x7E := by
  cases h with
  | unit _ ht => exact ht.bounds
  | pair ht hu _ _ _ => exact List.forall_mem_append.mpr ⟨ht.bounds, hu.bounds⟩

end

namespace Dump

theorem isPrintable_charPieces (ascii : Bool) (c : Char) :
    ∀ d ∈ (charPieces ascii c).flatten, IsPrintable ascii d := by
  unfold charPieces
  split
  case h_8 =>
    split
    case isTrue => exact isPrintable_of_bounds ascii (escapesChar_unitPieces c).bounds
    case isFalse hplain =>
      intro d hd
      obtain rfl : d = c := by simpa using hd
      simp only [Bool.or_eq_true, Bool.and_eq_true, decide_eq_true_eq, not_or, not_and] at hplain
      have hcontrol : ¬ d.toNat ≤ 0x1F := hplain.1
      refine ⟨by omega, fun hascii => ?_⟩
      have hdelete : ¬ 0x7F ≤ d.toNat := hplain.2 hascii
      omega
  all_goals exact isPrintable_of_bounds ascii (bounds_of_all (by decide))

theorem flatten_stringPieces (ascii : Bool) (s : String) : (stringPieces ascii s).flatten =
    '"' :: (s.toList.flatMap (fun c => (charPieces ascii c).flatten) ++ ['"']) := by
  have hflatten : (s.toList.flatMap (charPieces ascii)).flatten =
      s.toList.flatMap fun c => (charPieces ascii c).flatten := by
    rw [← List.flatMap_id, List.flatMap_assoc]
    simp only [List.flatMap_id]
  simp [stringPieces, hflatten]

theorem isPrintable_stringPieces (ascii : Bool) (s : String) :
    ∀ c ∈ (stringPieces ascii s).flatten, IsPrintable ascii c := by
  have hquote : IsPrintable ascii '"' := ⟨by decide, fun _ => by decide⟩
  rw [flatten_stringPieces, List.forall_mem_cons, List.forall_mem_append, List.forall_mem_singleton]
  refine ⟨hquote, fun d hd => ?_, hquote⟩
  obtain ⟨c, -, hd⟩ := List.mem_flatMap.mp hd
  exact isPrintable_charPieces ascii c d hd

theorem bounds_integerPieces (i : Int64) :
    ∀ c ∈ (integerPieces i.toInt).flatten, 0x20 ≤ c.toNat ∧ c.toNat ≤ 0x7E := by
  obtain ⟨l, htext, -⟩ := exists_integer_literal i
  rw [htext]
  exact fun c hc => (l.isNumeric c hc).bounds

theorem bounds_floatPieces {count : ℕ} (hpos : 0 < count) (hcount : count ≤ mostPrecision)
    (x : Binary64) : ∀ c ∈ (floatPieces count x).flatten, 0x20 ≤ c.toNat ∧ c.toNat ≤ 0x7E := by
  cases x with
  | nan => exact bounds_of_all rfl
  | infinite negative => exact bounds_of_all rfl
  | finite negative m =>
    obtain ⟨l, -, htext, -⟩ := exists_float_literal hpos hcount negative m
    rw [htext]
    exact fun c hc => (l.isNumeric c hc).bounds

end Dump

variable {o : DumpOptions}

/-- Every character of a token is printable. -/
theorem isPrintable_tokenText (hpos : 0 < o.precision) (hle : o.precision ≤ mostPrecision)
    (tok : Token) : ∀ c ∈ o.tokenText tok, IsPrintable o.escapeUnicode c := by
  cases tok with
  | string s => exact Dump.isPrintable_stringPieces o.escapeUnicode s
  | integer i => exact isPrintable_of_bounds _ (Dump.bounds_integerPieces i)
  | float x => exact isPrintable_of_bounds _ (Dump.bounds_floatPieces hpos hle x)
  | nameSeparator =>
    simp only [DumpOptions.tokenText]
    split <;> exact isPrintable_of_bounds _ (bounds_of_all rfl)
  | _ => exact isPrintable_of_bounds _ (bounds_of_all rfl)

/-- The text of a value is that of its tokens with what stands between them.  In the text of a token
there is no control, and with escapes nothing but ASCII that is printed; between tokens there is
nothing, or a break of the line with its indentation.  With escapes, every character of a string or
of a key beyond the printed ones of ASCII is written as the escapes of its code units. -/
theorem Value.dumpWith_printable (o : DumpOptions) (v : Value) :
    let p := o.withPrecision o.precision
    let toks := v.tokens .float []
    (v.dumpWith o).toList = p.arrange [] toks ∧
      (∀ tok ∈ toks, ∀ c ∈ p.tokenText tok,
        0x20 ≤ c.toNat ∧ (o.escapeUnicode → c.toNat ≤ 0x7E)) ∧
      (∀ before tok, p.gap before tok = [] ∨
        0 < o.indent ∧ ∃ count, p.gap before tok = '\n' :: List.replicate count o.indentChar) ∧
      (o.escapeUnicode → ∃ write : Char → List Char,
        (∀ c : Char, 0x7E < c.toNat → EscapesChar (write c) c) ∧
          ∀ s, .string s ∈ toks →
            p.tokenText (.string s) = '"' :: (s.toList.flatMap write ++ ['"'])) := by
  intro p toks
  obtain ⟨hpos, hle⟩ := o.withPrecision_bounds o.precision
  refine ⟨toList_dumpWith o v,
    fun tok _ => isPrintable_tokenText hpos hle tok, fun before tok => ?_, fun hescape =>
      ⟨fun c => (Dump.charPieces true c).flatten, fun c => Dump.escapesChar_charPieces, ?_⟩⟩
  · rcases p.gap_cases before tok with hnone | ⟨-, -, ⟨hindent, -⟩, hgap⟩
    · exact Or.inl hnone
    · exact Or.inr ⟨hindent, _, hgap⟩
  · intro s _
    rw [← hescape]
    exact Dump.flatten_stringPieces o.escapeUnicode s

/-- A key of two characters beyond ASCII, of one code unit and of two. -/
theorem Value.dumpWith_printable_surrogates :
    let o : DumpOptions := ⟨1, '\t', true, 16⟩
    let v := Value.object ⟨[("é😀", .null)]⟩
    o.escapeUnicode = true ∧ Token.string "é😀" ∈ v.tokens .float [] ∧
      o.tokenText (.string "é😀") = "\"\\u00e9\\ud83d\\ude00\"".toList ∧
      (∀ c ∈ o.tokenText (.string "é😀"), 0x20 ≤ c.toNat ∧ c.toNat ≤ 0x7E) ∧
      ∃ t u, o.tokenText (.string "é😀") = '"' :: (t ++ u ++ ['"']) ∧
        EscapesChar t 'é' ∧ EscapesChar u '😀' := by
  intro o v
  have hkey : Token.string "é😀" ∈ v.tokens .float [] := by decide
  obtain ⟨-, hprintable, -, hescapes⟩ := Value.dumpWith_printable o v
  obtain ⟨write, hwrite, hstring⟩ := hescapes rfl
  refine ⟨rfl, hkey, by decide, fun c hc => ?_, write 'é', write '😀', ?_, hwrite _ (by decide),
    hwrite _ (by decide)⟩
  · obtain ⟨hlow, hhigh⟩ := hprintable _ hkey c hc
    exact ⟨hlow, hhigh rfl⟩
  · have htwo : "é😀".toList.flatMap write = write 'é' ++ write '😀' := by simp
    rw [← htwo]
    exact hstring _ hkey

end JsonDoc
