import JsonDoc.Proofs.Dump.Printable

/-!
# Indentation follows the nesting

Every newline of a text that is written breaks a line between two tokens, and behind it stand the
indentation of as many levels as containers are open, and the next token
(`Value.dumpWith_indentation`).
-/

namespace JsonDoc

/-- A character that is not in the first part of a text stands in the rest of it. -/
theorem exists_of_append_eq_append_cons {α : Type} {t u a b : List α} {c : α} (hc : c ∉ t)
    (h : t ++ u = a ++ c :: b) : ∃ d, a = t ++ d ∧ u = d ++ c :: b := by
  rcases List.append_eq_append_iff.mp h with ⟨d, ha, hu⟩ | ⟨d, ht, hb⟩
  · exact ⟨d, ha, hu⟩
  · cases d with
    | nil => exact ⟨[], by simpa using ht.symm, hb.symm⟩
    | cons e d =>
      obtain ⟨rfl, -⟩ := List.cons.inj hb
      exact absurd (by simp [ht]) hc

section

variable {o : DumpOptions} {before toks : List Token} {tok : Token} {a b : List Char}

theorem newline_not_mem_tokenText (hpos : 0 < o.precision) (hle : o.precision ≤ mostPrecision)
    (tok : Token) : '\n' ∉ o.tokenText tok := by
  intro h
  have hcontrol := (isPrintable_tokenText hpos hle tok '\n' h).1
  exact absurd hcontrol (by decide)

/-- A newline stands between two parts of the text of tokens behind others, where a line is broken:
the first part is that of the tokens up to there, and the second begins with the indentation of as
many levels as containers are open, and the next token. -/
def BreaksAt (o : DumpOptions) (before toks : List Token) (a b : List Char) : Prop :=
  ∃ front tok after, toks = front ++ tok :: after ∧
    (∃ last, (before ++ front).getLast? = some last ∧ BreaksBetween last tok) ∧
    a = o.arrange before front ∧
    b = List.replicate (o.indent * openAt (before ++ front) tok) o.indentChar ++
      (o.tokenText tok ++ o.arrange (before ++ front ++ [tok]) after)

theorem BreaksAt.cons (h : BreaksAt o (before ++ [tok]) toks a b) :
    BreaksAt o before (tok :: toks) (o.gap before tok ++ (o.tokenText tok ++ a)) b := by
  obtain ⟨front, next, after, rfl, hlast, rfl, rfl⟩ := h
  rw [List.append_assoc, List.singleton_append] at *
  exact ⟨tok :: front, next, after, rfl, hlast, rfl, rfl⟩

/-- The newlines in the text of tokens are those where a line is broken. -/
theorem arrange_eq_append_newline_iff (hindent : 0 < o.indent) (hchar : o.indentChar ≠ '\n')
    (htext : ∀ tok, '\n' ∉ o.tokenText tok) :
    o.arrange before toks = a ++ '\n' :: b ↔ BreaksAt o before toks a b := by
  constructor
  · intro h
    induction toks generalizing before a with
    | nil => simp [DumpOptions.arrange] at h
    | cons tok toks ih =>
      rw [DumpOptions.arrange] at h
      rcases o.gap_cases before tok with hnone | ⟨last, hlast, ⟨-, hbreak⟩, hgap⟩
      · rw [hnone, List.nil_append] at h
        obtain ⟨d, rfl, hd⟩ := exists_of_append_eq_append_cons (htext tok) h
        simpa [hnone] using (ih hd).cons
      · rw [hgap, List.cons_append] at h
        cases a with
        | nil =>
          obtain ⟨-, rfl⟩ := List.cons.inj h
          exact ⟨[], tok, toks, rfl, ⟨last, by rwa [List.append_nil], hbreak⟩, rfl,
            by rw [List.append_nil]⟩
        | cons c a =>
          obtain ⟨rfl, hrest⟩ := List.cons.inj h
          have hcount : '\n' ∉ List.replicate (o.indent * openAt before tok) o.indentChar :=
            fun hmem => hchar (List.eq_of_mem_replicate hmem).symm
          obtain ⟨d, rfl, hd⟩ := exists_of_append_eq_append_cons hcount hrest
          obtain ⟨e, rfl, he⟩ := exists_of_append_eq_append_cons (htext tok) hd
          simpa [hgap] using (ih he).cons
  · rintro ⟨front, tok, after, rfl, ⟨last, hlast, hbreak⟩, rfl, rfl⟩
    rw [o.arrange_append, DumpOptions.arrange, DumpOptions.gap_of_getLast? hlast,
      if_pos ⟨hindent.ne', hbreak⟩]
    rfl

theorem breaksAt_nil_iff : BreaksAt o [] toks a b ↔
    ∃ before last tok after, toks = before ++ last :: tok :: after ∧ BreaksBetween last tok ∧
      a = o.arrange [] (before ++ [last]) ∧
      b = List.replicate (o.indent * openAt (before ++ [last]) tok) o.indentChar ++
        (o.tokenText tok ++ o.arrange (before ++ [last, tok]) after) := by
  constructor
  · rintro ⟨front, tok, after, rfl, ⟨last, hlast, hbreak⟩, rfl, rfl⟩
    rw [List.nil_append] at hlast ⊢
    obtain ⟨before, rfl⟩ := List.getLast?_eq_some_iff.mp hlast
    exact ⟨before, last, tok, after, by simp, hbreak, rfl, by simp⟩
  · rintro ⟨before, last, tok, after, rfl, hbreak, rfl, rfl⟩
    exact ⟨before ++ [last], tok, after, by simp, ⟨last, by simp, hbreak⟩, rfl, by simp⟩

/-- Nothing stands between the brackets of a container without items. -/
theorem arrange_brackets (before after : List Token) {first last : Token}
    (hfirst : first.opens = true) (hlast : last.closes = true) :
    o.arrange [] (before ++ first :: last :: after) = o.arrange [] (before ++ [first]) ++
      (o.tokenText last ++ o.arrange (before ++ [first, last]) after) := by
  rw [List.append_cons before first, o.arrange_append, List.nil_append, DumpOptions.arrange,
    DumpOptions.gap_of_not_breaksBetween (not_breaksBetween_brackets hfirst hlast)]
  simp

theorem arrange_of_indent_eq_zero (h : o.indent = 0) (before toks : List Token) :
    o.arrange before toks = toks.flatMap o.tokenText := by
  induction toks generalizing before with
  | nil => rfl
  | cons tok toks ih =>
    rw [DumpOptions.arrange, DumpOptions.gap_of_indent_eq_zero h, ih, List.flatMap_cons]
    rfl

end

/-- A value is written as its tokens, none of which has a newline in it, with a break of the line
between some of them.  With lines, the newlines of the text are those behind the bracket that opens
a container with items, behind a comma, and before the bracket that closes a container with items,
each followed by the indentation of as many levels as containers are open at the next token, and
this token; a container without items is written as its two brackets.  In one line, the text is that
of the tokens and nothing else. -/
theorem Value.dumpWith_indentation (o : DumpOptions) (v : Value) :
    let p := o.withPrecision o.precision
    let toks := v.tokens .float []
    (v.dumpWith o).toList = p.arrange [] toks ∧
      (∀ tok ∈ toks, '\n' ∉ p.tokenText tok) ∧
      (0 < o.indent → o.indentChar ≠ '\n' → ∀ a b : List Char,
        (v.dumpWith o).toList = a ++ '\n' :: b ↔
          ∃ before last tok after, toks = before ++ last :: tok :: after ∧
            BreaksBetween last tok ∧ a = p.arrange [] (before ++ [last]) ∧
            b = List.replicate (o.indent * openAt (before ++ [last]) tok) o.indentChar ++
              (p.tokenText tok ++ p.arrange (before ++ [last, tok]) after)) ∧
      (∀ before first last after, toks = before ++ first :: last :: after →
        first.opens → last.closes → (v.dumpWith o).toList =
          p.arrange [] (before ++ [first]) ++
            (p.tokenText last ++ p.arrange (before ++ [first, last]) after)) ∧
      (o.indent = 0 → (v.dumpWith o).toList = toks.flatMap p.tokenText) := by
  intro p toks
  obtain ⟨hpos, hle⟩ := o.withPrecision_bounds o.precision
  have htext : ∀ tok, '\n' ∉ p.tokenText tok := newline_not_mem_tokenText hpos hle
  rw [toList_dumpWith]
  refine ⟨rfl, fun tok _ => htext tok, fun hindent hchar a b => ?_, ?_, fun hindent => ?_⟩
  · exact (@arrange_eq_append_newline_iff p [] toks a b hindent hchar htext).trans breaksAt_nil_iff
  · intro before first last after htoks hfirst hlast
    rw [← arrange_brackets before after hfirst hlast, ← htoks]
  · exact @arrange_of_indent_eq_zero p hindent [] toks

/-- Indented by the quotation mark that the key in the next line begins with, too, the newline in
the key is none of the text. -/
theorem Value.dumpWith_indentation_quotationMarks :
    let o : DumpOptions := ⟨2, '"', false, 16⟩
    let v := Value.array [.array [], .object ⟨[("\n", .null)]⟩]
    let toks := v.tokens .float []
    0 < o.indent ∧ o.indentChar ≠ '\n' ∧ (∀ tok ∈ toks, '\n' ∉ o.tokenText tok) ∧
      (v.dumpWith o).toList =
        "[\n\"\"[],\n\"\"\x7b".toList ++ '\n' :: "\"\"\"\"\"\\n\": null\n\"\"\x7d\n]".toList ∧
      (v.dumpWith o).toList =
        "[\n\"\"[".toList ++ "],\n\"\"\x7b\n\"\"\"\"\"\\n\": null\n\"\"\x7d\n]".toList ∧
      (v.dumpWith .compact).toList = "[[],\x7b\"\\n\":null\x7d]".toList := by
  intro o v toks
  obtain ⟨-, htext, hnewlines, hbrackets, -⟩ := Value.dumpWith_indentation o v
  have hoptions : 0 < o.indent ∧ o.indentChar ≠ '\n' := by decide
  refine ⟨hoptions.1, hoptions.2, htext, ?_, ?_, ?_⟩
  · exact (hnewlines hoptions.1 hoptions.2 _ _).mpr ⟨[.beginArray, .beginArray, .endArray,
      .valueSeparator], .beginObject, .string "\n", [.nameSeparator, .null, .endObject, .endArray],
      by decide, by decide, by decide, by decide⟩
  · rw [hbrackets [.beginArray] .beginArray .endArray [.valueSeparator, .beginObject,
      .string "\n", .nameSeparator, .null, .endObject, .endArray] rfl rfl rfl]
    decide
  · rw [(Value.dumpWith_indentation .compact v).2.2.2.2 rfl]
    decide

end JsonDoc
