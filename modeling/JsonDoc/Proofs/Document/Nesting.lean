import JsonDoc.Proofs.Document.Grammar

/-!
# How deep brackets are nested

The nesting of a text is told by its characters alone: every bracket outside of strings opens or
closes one level, and the nesting is the greatest level (`nestingFrom_le_iff`).  A token changes the
level as its brackets do, and what stands in a string or in a number does not count
(`ScansTo.exists_levelFrom`).
-/

namespace JsonDoc

/-! ### Levels of a text -/

/-- Where a character stands among the strings of a text. -/
inductive Quoting where
  | outside
  | inside
  /-- After a backslash. -/
  | escaped
  deriving DecidableEq, Repr

/-- Where the character after this one stands. -/
def Quoting.next : Quoting → Char → Quoting
  | outside, c => if c = '"' then inside else outside
  | inside, c => if c = '"' then outside else if c = '\\' then escaped else inside
  | escaped, _ => inside

/-- The deepest level of brackets in a text that begins at a level. -/
def nestingFrom : Quoting → ℕ → List Char → ℕ
  | _, level, [] => level
  | .outside, level, c :: cs =>
    if c = '"' then nestingFrom .inside level cs
    else if c = '[' ∨ c = '{' then nestingFrom .outside (level + 1) cs
    else if c = ']' ∨ c = '}' then max level (nestingFrom .outside (level - 1) cs)
    else nestingFrom .outside level cs
  | .inside, level, c :: cs =>
    if c = '"' then nestingFrom .outside level cs
    else if c = '\\' then nestingFrom .escaped level cs
    else nestingFrom .inside level cs
  | .escaped, level, _ :: cs => nestingFrom .inside level cs

/-- The count of brackets that are open where most are. -/
def nesting (text : String) : ℕ := nestingFrom .outside 0 text.toList

-- empty containers count, while brackets in strings and those that were closed before do not
example : nesting "[\"[[\\\"[\",[[],[[]]],[]]" = 4 := by decide

/-- The level behind a character, from the one before it. -/
def Quoting.levelAfter : Quoting → ℕ → Char → ℕ
  | outside, level, c =>
    if c = '[' ∨ c = '{' then level + 1
    else if c = ']' ∨ c = '}' then level - 1
    else level
  | _, level, _ => level

/-- Where the character behind a text stands, and the level there. -/
def levelFrom (q : Quoting) (level : ℕ) (cs : List Char) : Quoting × ℕ :=
  cs.foldl (fun before c => (before.1.next c, before.1.levelAfter before.2 c)) (q, level)

/-- The count of brackets that are open behind a text. -/
def level (cs : List Char) : ℕ := (levelFrom .outside 0 cs).2

example : level "[1, [\"[\\\"[\", [], \"".toList = 2 := by decide

variable {level : ℕ} {q : Quoting} {t u u' : List Char} {c : Char}

theorem le_nestingFrom (q : Quoting) (level : ℕ) (cs : List Char) :
    level ≤ nestingFrom q level cs := by
  induction cs generalizing q level with
  | nil => cases q <;> exact le_rfl
  | cons c cs ih =>
    cases q with
    | outside =>
      unfold nestingFrom
      split_ifs
      · exact ih _ _
      · exact (Nat.le_succ level).trans (ih _ _)
      · exact le_max_left _ _
      · exact ih _ _
    | inside =>
      unfold nestingFrom
      split_ifs <;> exact ih _ _
    | escaped => exact ih _ _

theorem levelAfter_of_ne_outside (hq : q ≠ .outside) (level : ℕ) (c : Char) :
    q.levelAfter level c = level := by
  cases q with
  | outside => exact absurd rfl hq
  | inside | escaped => rfl

theorem levelFrom_append (q : Quoting) (level : ℕ) (t u : List Char) :
    levelFrom q level (t ++ u) = levelFrom (levelFrom q level t).1 (levelFrom q level t).2 u :=
  List.foldl_append

theorem levelFrom_cons_outside (h : c ≠ '"') (level : ℕ) (t : List Char) :
    levelFrom .outside level (c :: t) =
      levelFrom .outside (Quoting.outside.levelAfter level c) t := by
  rw [levelFrom, List.foldl_cons, Quoting.next, if_neg h]
  rfl

theorem nestingFrom_cons (q : Quoting) (level : ℕ) (c : Char) (cs : List Char) :
    nestingFrom q level (c :: cs) =
      max level (nestingFrom (q.next c) (q.levelAfter level c) cs) := by
  cases q with
  | outside =>
    rw [nestingFrom, Quoting.next, Quoting.levelAfter]
    by_cases hquote : c = '"'
    · subst hquote
      exact (max_eq_right (le_nestingFrom _ _ _)).symm
    rw [if_neg hquote, if_neg hquote]
    split_ifs
    · exact (max_eq_right ((Nat.le_succ level).trans (le_nestingFrom _ _ _))).symm
    · rfl
    · exact (max_eq_right (le_nestingFrom _ _ _)).symm
  | inside =>
    rw [nestingFrom, Quoting.next]
    split_ifs <;> exact (max_eq_right (le_nestingFrom _ _ _)).symm
  | escaped => exact (max_eq_right (le_nestingFrom _ _ _)).symm

/-- The nesting of a text is the greatest level behind any part that it begins with. -/
theorem nestingFrom_le_iff {most : ℕ} (q : Quoting) (level : ℕ) (cs : List Char) :
    nestingFrom q level cs ≤ most ↔ ∀ t, t <+: cs → (levelFrom q level t).2 ≤ most := by
  induction cs generalizing q level with
  | nil =>
    have hnil : nestingFrom q level [] = level := by cases q <;> rfl
    rw [hnil]
    refine ⟨fun h t ht => ?_, fun h => h [] List.nil_prefix⟩
    rw [List.prefix_nil.mp ht]
    exact h
  | cons c cs ih =>
    rw [nestingFrom_cons, max_le_iff, ih]
    constructor
    · rintro ⟨hlevel, hrest⟩ t ht
      cases t with
      | nil => exact hlevel
      | cons d t =>
        obtain ⟨rfl, hprefix⟩ := List.cons_prefix_cons.mp ht
        exact hrest t hprefix
    · intro h
      exact ⟨h [] List.nil_prefix, fun t ht => h (c :: t) (List.cons_prefix_cons.mpr ⟨rfl, ht⟩)⟩

/-! ### Characters without brackets -/

/-- The character neither is a bracket nor begins a string. -/
def IsFlat (c : Char) : Prop := c ≠ '"' ∧ c ≠ '[' ∧ c ≠ '{' ∧ c ≠ ']' ∧ c ≠ '}'

theorem nestingFrom_flat (ht : ∀ c ∈ t, IsFlat c) (u : List Char) :
    nestingFrom .outside level (t ++ u) = nestingFrom .outside level u := by
  induction t with
  | nil => rfl
  | cons c t ih =>
    obtain ⟨⟨h₁, h₂, h₃, h₄, h₅⟩, ht⟩ := List.forall_mem_cons.mp ht
    rw [List.cons_append, nestingFrom, if_neg h₁, if_neg (not_or.mpr ⟨h₂, h₃⟩),
      if_neg (not_or.mpr ⟨h₄, h₅⟩), ih ht]

theorem levelFrom_flat (ht : ∀ c ∈ t, IsFlat c) :
    levelFrom .outside level t = (.outside, level) := by
  induction t with
  | nil => rfl
  | cons c t ih =>
    obtain ⟨⟨h₁, h₂, h₃, h₄, h₅⟩, ht⟩ := List.forall_mem_cons.mp ht
    rw [levelFrom_cons_outside h₁, Quoting.levelAfter, if_neg (not_or.mpr ⟨h₂, h₃⟩),
      if_neg (not_or.mpr ⟨h₄, h₅⟩), ih ht]

theorem IsBlanks.isFlat {w : List Char} (hw : IsBlanks w) : ∀ c ∈ w, IsFlat c := by
  intro c hc
  rcases hw c hc with rfl | rfl | rfl | rfl <;> unfold IsFlat <;> decide

/-- The character may stand in a number. -/
def IsNumeric (c : Char) : Prop := c.isDigit ∨ c ∈ ['-', '+', '.', 'e', 'E']

theorem IsNumeric.isFlat (hc : IsNumeric c) : IsFlat c := by
  rcases hc with hc | hc
  · refine ⟨?_, ?_, ?_, ?_, ?_⟩ <;> rintro rfl <;> exact absurd hc (by decide)
  · simp only [List.mem_cons, List.not_mem_nil, or_false] at hc
    rcases hc with rfl | rfl | rfl | rfl | rfl <;> unfold IsFlat <;> decide

theorem ExponentPart.isNumeric (x : ExponentPart) : ∀ c ∈ x.text, IsNumeric c := by
  intro c hc
  rcases List.mem_cons.mp hc with rfl | hc
  · rcases x.letter_eq with h | h <;> rw [h] <;> exact Or.inr (by decide)
  · rcases List.mem_append.mp hc with hc | hc
    · rcases x.sign_eq c (Option.mem_toList.mp hc) with rfl | rfl <;> exact Or.inr (by decide)
    · exact Or.inl (x.digits.isDigits c hc)

theorem NumberLiteral.isNumeric (l : NumberLiteral) : ∀ c ∈ l.text, IsNumeric c := by
  have hsign : ∀ c ∈ if l.negative then ['-'] else [], IsNumeric c := by
    intro c hc
    split at hc
    · rw [List.mem_singleton.mp hc]
      exact Or.inr (by decide)
    · cases hc
  have hfraction : ∀ c ∈ l.fractionText, IsNumeric c := by
    intro c hc
    unfold fractionText at hc
    split at hc
    · cases hc
    · rename_i ds _
      rcases List.mem_cons.mp hc with rfl | hc
      · exact Or.inr (by decide)
      · exact Or.inl (ds.isDigits c hc)
  have hexponent : ∀ c ∈ l.exponentText, IsNumeric c := by
    intro c hc
    unfold exponentText at hc
    split at hc
    · cases hc
    · exact ExponentPart.isNumeric _ c hc
  intro c hc
  simp only [text, List.mem_append] at hc
  rcases hc with hc | hc | hc | hc
  · exact hsign c hc
  · exact Or.inl (l.integer.isDigits c hc)
  · exact hfraction c hc
  · exact hexponent c hc

/-! ### Strings -/

theorem IsHexDigit.ne {v : ℕ} (h : IsHexDigit c v) : c ≠ '"' ∧ c ≠ '\\' := by
  have hne : ∀ v < 16, (v.digitChar ≠ '"' ∧ v.digitChar ≠ '\\') ∧
      v.digitChar.toUpper ≠ '"' ∧ v.digitChar.toUpper ≠ '\\' := by decide
  obtain ⟨hv, rfl | rfl⟩ := h
  · exact (hne v hv).1
  · exact (hne v hv).2

/-- The characters go on in a string, and the last of them is the quote that ends it. -/
inductive EndsString : Quoting → List Char → Prop
  | quote : EndsString .inside ['"']
  | cons {q : Quoting} {c : Char} {t : List Char} (hq : q ≠ .outside) (h : EndsString (q.next c) t) :
      EndsString q (c :: t)

namespace EndsString

theorem plain (hquote : c ≠ '"') (hslash : c ≠ '\\') (h : EndsString .inside t) :
    EndsString .inside (c :: t) := by
  refine cons (by decide) ?_
  rwa [Quoting.next, if_neg hquote, if_neg hslash]

theorem escape (c : Char) (h : EndsString .inside t) : EndsString .inside ('\\' :: c :: t) :=
  cons (by decide) (cons (by decide) h)

theorem unit {n : ℕ} (ht : SpellsUnit t n) (h : EndsString .inside u) :
    EndsString .inside (t ++ u) := by
  obtain ⟨h₁, h₂, h₃, h₄⟩ := ht
  simp only [List.cons_append, List.nil_append]
  exact plain h₁.ne.1 h₁.ne.2 (plain h₂.ne.1 h₂.ne.2 (plain h₃.ne.1 h₃.ne.2
    (plain h₄.ne.1 h₄.ne.2 h)))

end EndsString

/-- The spelling of a string ends at its quote. -/
theorem SpellsString.endsString {s : List Char} (h : SpellsString t s) :
    EndsString .inside (t ++ ['"']) := by
  induction h with
  | nil => exact .quote
  | plain hquote hslash _ _ ih => exact ih.plain hquote hslash
  | short _ _ ih => exact ih.escape _
  | unit hds _ ih =>
    simp only [List.cons_append, List.append_assoc]
    exact (ih.unit hds).escape _
  | pair hds hes _ _ _ _ ih =>
    simp only [List.cons_append, List.append_assoc]
    exact (((ih.unit hes).escape _).unit hds).escape _

theorem nestingFrom_cons_of_ne_outside {q : Quoting} (hq : q ≠ .outside) (c : Char)
    (cs : List Char) : nestingFrom q level (c :: cs) = nestingFrom (q.next c) level cs := by
  rw [nestingFrom_cons, levelAfter_of_ne_outside hq, max_eq_right (le_nestingFrom _ _ _)]

/-- What stands in a string has no brackets that count. -/
theorem EndsString.nestingFrom_eq {q : Quoting} (h : EndsString q t) (u : List Char) :
    nestingFrom q level (t ++ u) = nestingFrom .outside level u := by
  induction h with
  | quote => rfl
  | cons hq _ ih => rw [List.cons_append, nestingFrom_cons_of_ne_outside hq, ih]

theorem EndsString.levelFrom_eq (h : EndsString q t) :
    levelFrom q level t = (.outside, level) := by
  induction h with
  | quote => rfl
  | cons hq _ ih =>
    rw [levelFrom, List.foldl_cons, levelAfter_of_ne_outside hq]
    exact ih

/-! ### Tokens -/

/-- The level after a token. -/
def Token.levelAfter (level : ℕ) : Token → ℕ
  | .beginArray => level + 1
  | .beginObject => level + 1
  | .endArray => level - 1
  | .endObject => level - 1
  | _ => level

theorem SpellsToken.nestingFrom_eq {tok : Token} (h : SpellsToken t tok) (level : ℕ)
    (u : List Char) : nestingFrom .outside level (t ++ u) =
      max level (nestingFrom .outside (tok.levelAfter level) u) := by
  have hflat : (∀ c ∈ t, IsFlat c) → tok.levelAfter level = level → nestingFrom .outside level
      (t ++ u) = max level (nestingFrom .outside (tok.levelAfter level) u) := by
    intro ht htok
    rw [nestingFrom_flat ht, htok, max_eq_right (le_nestingFrom _ _ _)]
  cases h with
  | beginArray | beginObject =>
    exact (max_eq_right ((Nat.le_succ level).trans (le_nestingFrom _ _ _))).symm
  | endArray | endObject => rfl
  | nameSeparator | valueSeparator | true | false | null =>
    exact hflat (by simp [IsFlat]) rfl
  | string hs =>
    rw [List.cons_append]
    exact (hs.endsString.nestingFrom_eq u).trans (max_eq_right (le_nestingFrom _ _ _)).symm

theorem SpellsToken.levelFrom_eq {tok : Token} (h : SpellsToken t tok) (level : ℕ) :
    levelFrom .outside level t = (.outside, tok.levelAfter level) := by
  cases h with
  | beginArray | beginObject | endArray | endObject => rfl
  | nameSeparator | valueSeparator | true | false | null =>
    exact levelFrom_flat (by simp [IsFlat])
  | string hs => exact hs.endsString.levelFrom_eq

/-- A scan moves the level of the text that it uses up as the token does. -/
theorem ScansTo.exists_levelFrom {tok : Token} (h : ScansTo u tok u') (level : ℕ) :
    ∃ used, u = used ++ u' ∧ levelFrom .outside level used = (.outside, tok.levelAfter level) := by
  cases h with
  | endOfInput hw => exact ⟨u, (List.append_nil u).symm, levelFrom_flat hw.isFlat⟩
  | @token w t _ _ hw ht =>
    refine ⟨w ++ t, (List.append_assoc _ _ _).symm, ?_⟩
    rw [levelFrom_append, levelFrom_flat hw.isFlat, ht.levelFrom_eq]
  | @number w _ l _ hw hu ht =>
    refine ⟨w ++ l.text, (List.append_assoc _ _ _).symm, ?_⟩
    have hflat : ∀ c ∈ w ++ l.text, IsFlat c := List.forall_mem_append.mpr
      ⟨hw.isFlat, fun c hc => (NumberLiteral.isNumeric l c hc).isFlat⟩
    rw [levelFrom_flat hflat]
    rcases NumberLiteral.denotes_of_token ht with ⟨i, rfl, -⟩ | ⟨x, rfl, -⟩ <;> rfl

/-- The levels of a text are those before a token and those after it. -/
theorem ScansTo.nestingFrom_eq {tok : Token} (h : ScansTo u tok u') (level : ℕ) :
    nestingFrom .outside level u =
      max level (nestingFrom .outside (tok.levelAfter level) u') := by
  cases h with
  | endOfInput hw =>
    have hblanks : nestingFrom .outside level (u ++ []) = nestingFrom .outside level [] :=
      nestingFrom_flat hw.isFlat []
    rw [List.append_nil] at hblanks
    rw [hblanks]
    exact (max_self level).symm
  | token hw ht => rw [nestingFrom_flat hw.isFlat, ht.nestingFrom_eq]
  | number hw hu ht =>
    rw [nestingFrom_flat hw.isFlat, nestingFrom_flat fun c hc => (NumberLiteral.isNumeric _ c hc).isFlat]
    rcases NumberLiteral.denotes_of_token ht with ⟨i, rfl, -⟩ | ⟨x, rfl, -⟩
    · exact (max_eq_right (le_nestingFrom _ _ _)).symm
    · exact (max_eq_right (le_nestingFrom _ _ _)).symm

/-- A token that opens a level is a bracket, behind blanks. -/
theorem ScansTo.exists_bracket {tok : Token} (h : ScansTo u tok u')
    (hlevel : level < tok.levelAfter level) :
    ∃ w c, u = w ++ c :: u' ∧ (c = '[' ∨ c = '{') := by
  cases tok with
  | beginArray =>
    obtain ⟨w, _, -, ⟨⟩, rfl⟩ := h.exists_spelling nofun nofun nofun
    exact ⟨w, '[', rfl, Or.inl rfl⟩
  | beginObject =>
    obtain ⟨w, _, -, ⟨⟩, rfl⟩ := h.exists_spelling nofun nofun nofun
    exact ⟨w, '{', rfl, Or.inr rfl⟩
  | endArray | endObject => exact absurd hlevel (not_lt.mpr (Nat.sub_le level 1))
  | _ => exact absurd hlevel (lt_irrefl level)

end JsonDoc
