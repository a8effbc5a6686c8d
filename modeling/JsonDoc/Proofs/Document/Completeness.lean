import JsonDoc.Proofs.Document.Soundness

/-!
# What is spelled is read

A derivation of the grammar drives the run of the reader: what it spells takes a state of reading to
the one after the value, unless a number is out of range.  With the other direction this says which
texts are documents, and of what (`parse_grammar`).
-/

namespace JsonDoc

/-- The text does not continue a number before it. -/
def Delimited (u : List Char) : Prop :=
  ∀ c ∈ u.head?, ¬ c.isDigit ∧ c ≠ '.' ∧ c ≠ 'e' ∧ c ≠ 'E'

theorem delimited_nil : Delimited [] := nofun

theorem Delimited.endsBefore {u : List Char} (h : Delimited u) (l : NumberLiteral) :
    l.EndsBefore u := fun c hc =>
  ⟨(h c hc).1, fun _ => (h c hc).2.2, fun _ _ => (h c hc).2.1⟩

theorem delimited_of_mem {c : Char} {u : List Char}
    (h : c ∈ [' ', '\t', '\n', '\r', ',', ']', '}']) :
    Delimited (c :: u) := by
  rintro _ ⟨⟩
  simp only [List.mem_cons, List.not_mem_nil, or_false] at h
  rcases h with rfl | rfl | rfl | rfl | rfl | rfl | rfl <;> decide

theorem Delimited.append_blanks {w u : List Char} (hw : IsBlanks w) (hu : Delimited u) :
    Delimited (w ++ u) := by
  cases w with
  | nil => exact hu
  | cons c w =>
    refine delimited_of_mem ?_
    rcases hw c List.mem_cons_self with rfl | rfl | rfl | rfl <;> decide

/-! ### The first character -/

theorem eq_of_append_blanks {w w' r r' : List Char} {c c' : Char} (hw : IsBlanks w)
    (hw' : IsBlanks w') (hc : ¬ TokenState.isBlank c) (hc' : ¬ TokenState.isBlank c')
    (h : w ++ c :: r = w' ++ c' :: r') : c = c' := by
  induction w generalizing w' with
  | nil =>
    cases w' with
    | nil => exact (List.cons.inj h).1
    | cons d w' =>
      obtain ⟨rfl, -⟩ := List.cons.inj h
      exact absurd (TokenState.isBlank_iff.mpr (isBlanks_cons.mp hw').1) hc
  | cons d w ih =>
    cases w' with
    | nil =>
      obtain ⟨rfl, -⟩ := List.cons.inj h
      exact absurd (TokenState.isBlank_iff.mpr (isBlanks_cons.mp hw).1) hc'
    | cons d' w' => exact ih (isBlanks_cons.mp hw).2 (isBlanks_cons.mp hw').2 (List.cons.inj h).2

theorem not_isBlank_of_isDigit {c : Char} (hc : c.isDigit) : ¬ TokenState.isBlank c := by
  rw [TokenState.isBlank_iff]
  rintro (rfl | rfl | rfl | rfl) <;> exact absurd hc (by decide)

/-- A value does not begin with a blank or with a closing bracket. -/
theorem SpellsValue.exists_cons {number : NumberLiteral → Value → Prop} {order : MemberOrder}
    {t : List Char} {v : Value} (h : SpellsValue number order t v) :
    ∃ c r, t = c :: r ∧ ¬ TokenState.isBlank c ∧ c ≠ ']' := by
  cases h with
  | @number l v h =>
    obtain ⟨c, cs, hl, hc, -⟩ := l.integer.exists_cons
    unfold NumberLiteral.text
    rw [hl]
    cases l.negative with
    | true => exact ⟨'-', _, rfl, by decide, by decide⟩
    | false =>
      refine ⟨c, _, rfl, not_isBlank_of_isDigit hc, ?_⟩
      rintro rfl
      exact absurd hc (by decide)
  | _ => exact ⟨_, _, rfl, by decide, by decide⟩

theorem SpellsElements.not_scansTo {number : NumberLiteral → Value → Prop} {order : MemberOrder}
    {t : List Char} {vs : List Value} (h : SpellsElements number order t vs) (u u' : List Char) :
    ¬ ScansTo (t ++ u) .endArray u' := by
  have helement : ∀ t v, SpellsElement number order t v → ∀ u, ¬ ScansTo (t ++ u) .endArray u' := by
    rintro _ v ⟨hw, h, hx⟩ u hscan
    obtain ⟨c, r, rfl, hc, hne⟩ := h.exists_cons
    obtain ⟨y, _, hy, ⟨⟩, heq⟩ := hscan.exists_spelling nofun nofun nofun
    rw [List.append_assoc, List.cons_append, List.cons_append] at heq
    exact hne (eq_of_append_blanks hw hy hc (by decide) heq)
  cases h with
  | one h => exact helement _ _ h u
  | more h hs =>
    rw [List.append_assoc]
    exact helement _ _ h _

theorem SpellsMembers.not_scansTo {number : NumberLiteral → Value → Prop} {order : MemberOrder}
    {t : List Char} {ps : List (String × Value)} (h : SpellsMembers number order t ps)
    (u u' : List Char) : ¬ ScansTo (t ++ u) .endObject u' := by
  have hmember : ∀ t p, SpellsMember number order t p → ∀ u, ¬ ScansTo (t ++ u) .endObject u' := by
    rintro _ _ ⟨hw, hk, hx, h⟩ u hscan
    obtain ⟨y, _, hy, ⟨⟩, heq⟩ := hscan.exists_spelling nofun nofun nofun
    rw [List.append_assoc, List.append_assoc, List.cons_append] at heq
    exact absurd (eq_of_append_blanks hw hy (by decide) (by decide) heq) (by decide)
  cases h with
  | one h => exact hmember _ _ h u
  | more h hs =>
    rw [List.append_assoc]
    exact hmember _ _ h _

namespace ReadState

open Document

/-! ### Reading what is spelled -/

/-- The characters are read as a value wherever one may stand. -/
def ValueReads (order : MemberOrder) (mayFail : Prop) (t : List Char) (v : Value) : Prop :=
  ∀ w frames u, IsBlanks w → Delimited u →
    (ReadState.mk .value frames).Reads (unlimited order) mayFail (w ++ (t ++ u))
      (supply order v frames) u

/-- The same for a value between blanks, of which some are left after it. -/
def ElementReads (order : MemberOrder) (mayFail : Prop) (t : List Char) (v : Value) : Prop :=
  ∀ frames u, Delimited u → ∃ x, IsBlanks x ∧
    (ReadState.mk .value frames).Reads (unlimited order) mayFail (t ++ u)
      (supply order v frames) (x ++ u)

/-- The characters are read as the further elements of an array, up to the bracket. -/
def ElementsRead (order : MemberOrder) (mayFail : Prop) (t : List Char) (vs : List Value) : Prop :=
  ∀ reversed frames u,
    (ReadState.mk .value (.element reversed :: frames)).Reads (unlimited order) mayFail
      (t ++ ']' :: u) (supply order (.array (reversed.reverse ++ vs)) frames) u

/-- The characters are read as a member of an object. -/
def MemberReads (order : MemberOrder) (mayFail : Prop) (t : List Char) (p : String × Value) :
    Prop :=
  ∀ members frames u, Delimited u → ∃ x, IsBlanks x ∧
    (ReadState.mk (.key members) frames).Reads (unlimited order) mayFail (t ++ u)
      ⟨.objectNext (members.insert order p.1 p.2).2, frames⟩ (x ++ u)

/-- The characters are read as the further members of an object, up to the brace. -/
def MembersRead (order : MemberOrder) (mayFail : Prop) (t : List Char)
    (ps : List (String × Value)) : Prop :=
  ∀ members frames u,
    (ReadState.mk (.key members) frames).Reads (unlimited order) mayFail (t ++ '}' :: u)
      (supply order (.object (insertAll order members ps)) frames) u

variable {number : NumberLiteral → Value → Prop} {order : MemberOrder} {mayFail : Prop}
  {frames : List Frame} {t u w x k s : List Char} {v : Value} {vs : List Value}
  {p : String × Value} {ps : List (String × Value)}

theorem valueReads_number {l : NumberLiteral}
    (h : l.Denotes v ∨ mayFail ∧ l.token = .error .numberOutOfRange) :
    ValueReads order mayFail l.text v := by
  intro w frames u hw hu
  rcases h with (⟨i, ht, rfl⟩ | ⟨x, ht, rfl⟩) | ⟨hfail, ht⟩
  · exact reads_of_step (.number hw (hu.endsBefore l) ht) nofun rfl
  · exact reads_of_step (.number hw (hu.endsBefore l) ht) nofun rfl
  · intro n p
    have hscan := scan_blanks_literal hw (hu.endsBefore l) n p
    rw [ht] at hscan
    exact Or.inr ⟨hfail, _, run_of_scan_error hscan⟩

theorem valueReads_emptyArray (hx : IsBlanks x) :
    ValueReads order mayFail ('[' :: (x ++ [']'])) (.array []) := by
  intro w frames u hw hu
  have hopen : (ReadState.mk .value frames).Reads (unlimited order) mayFail
      (w ++ (['['] ++ (x ++ ([']'] ++ u)))) ⟨.arrayStart, frames⟩ (x ++ ([']'] ++ u)) :=
    reads_token hw .beginArray _ rfl
  have hclose := hopen.trans (reads_token hx .endArray u rfl)
  simp only [List.cons_append, List.append_assoc]
  exact hclose

theorem valueReads_array (hspell : SpellsElements number order t vs)
    (h : ElementsRead order mayFail t vs) :
    ValueReads order mayFail ('[' :: (t ++ [']'])) (.array vs) := by
  intro w frames u hw hu
  have hopen : (ReadState.mk .value frames).Reads (unlimited order) mayFail
      (w ++ (['['] ++ (t ++ ']' :: u))) ⟨.arrayStart, frames⟩ (t ++ ']' :: u) :=
    reads_token hw .beginArray _ rfl
  have hfirst := hopen.trans ((alikeBut_arrayStart frames).reads (hspell.not_scansTo _))
  simp only [List.cons_append, List.append_assoc]
  exact hfirst.trans (h [] frames u)

theorem valueReads_emptyObject (hx : IsBlanks x) :
    ValueReads order mayFail ('{' :: (x ++ ['}'])) (.object .empty) := by
  intro w frames u hw hu
  have hopen : (ReadState.mk .value frames).Reads (unlimited order) mayFail
      (w ++ (['{'] ++ (x ++ (['}'] ++ u)))) ⟨.objectStart, frames⟩ (x ++ (['}'] ++ u)) :=
    reads_token hw .beginObject _ rfl
  have hclose := hopen.trans (reads_token hx .endObject u rfl)
  simp only [List.cons_append, List.append_assoc]
  exact hclose

theorem valueReads_object (hspell : SpellsMembers number order t ps)
    (h : MembersRead order mayFail t ps) :
    ValueReads order mayFail ('{' :: (t ++ ['}'])) (.object (.ofList order ps)) := by
  intro w frames u hw hu
  have hopen : (ReadState.mk .value frames).Reads (unlimited order) mayFail
      (w ++ (['{'] ++ (t ++ '}' :: u))) ⟨.objectStart, frames⟩ (t ++ '}' :: u) :=
    reads_token hw .beginObject _ rfl
  have hfirst := hopen.trans ((alikeBut_objectStart frames).reads (hspell.not_scansTo _))
  simp only [List.cons_append, List.append_assoc]
  exact hfirst.trans (h .empty frames u)

theorem elementReads_mk (hw : IsBlanks w) (h : ValueReads order mayFail t v) (hx : IsBlanks x) :
    ElementReads order mayFail (w ++ (t ++ x)) v := by
  intro frames u hu
  refine ⟨x, hx, ?_⟩
  rw [List.append_assoc, List.append_assoc]
  exact h w frames (x ++ u) hw (hu.append_blanks hx)

theorem elementsRead_one (h : ElementReads order mayFail t v) :
    ElementsRead order mayFail t [v] := by
  intro reversed frames u
  obtain ⟨x, hx, hread⟩ := h (.element reversed :: frames) (']' :: u) (delimited_of_mem (by decide))
  have hclose := hread.trans (reads_token hx .endArray u rfl)
  rw [List.reverse_cons] at hclose
  exact hclose

theorem elementsRead_more (h : ElementReads order mayFail t v)
    (hs : ElementsRead order mayFail u vs) :
    ElementsRead order mayFail (t ++ ',' :: u) (v :: vs) := by
  intro reversed frames u'
  obtain ⟨x, hx, hread⟩ := h (.element reversed :: frames) (',' :: (u ++ ']' :: u'))
    (delimited_of_mem (by decide))
  have hnext := hread.trans (reads_token hx .valueSeparator (u ++ ']' :: u') rfl)
  have hrest := hnext.trans (hs (v :: reversed) frames u')
  rw [List.reverse_cons, List.append_assoc] at hrest
  simpa using hrest

theorem memberReads_mk (hw : IsBlanks w) (hk : SpellsString k s) (hx : IsBlanks x)
    (h : ElementReads order mayFail t v) :
    MemberReads order mayFail (w ++ ('"' :: (k ++ ['"']) ++ (x ++ ':' :: t)))
      (String.ofList s, v) := by
  intro members frames u hu
  obtain ⟨y, hy, hread⟩ := h (.member members (String.ofList s) :: frames) u hu
  have hkey : (ReadState.mk (.key members) frames).Reads (unlimited order) mayFail
      (w ++ ('"' :: (k ++ ['"']) ++ (x ++ ([':'] ++ (t ++ u)))))
      ⟨.colon members (String.ofList s), frames⟩ (x ++ ([':'] ++ (t ++ u))) :=
    reads_token hw (.string hk) _ rfl
  have hcolon := hkey.trans (reads_token hx .nameSeparator (t ++ u) rfl)
  refine ⟨y, hy, ?_⟩
  simp only [List.cons_append, List.append_assoc]
  simp only [List.cons_append, List.append_assoc] at hcolon
  exact hcolon.trans hread

theorem membersRead_one (h : MemberReads order mayFail t p) :
    MembersRead order mayFail t [p] := by
  intro members frames u
  obtain ⟨x, hx, hread⟩ := h members frames ('}' :: u) (delimited_of_mem (by decide))
  exact hread.trans (reads_token hx .endObject u rfl)

theorem membersRead_more (h : MemberReads order mayFail t p)
    (hs : MembersRead order mayFail u ps) :
    MembersRead order mayFail (t ++ ',' :: u) (p :: ps) := by
  intro members frames u'
  obtain ⟨x, hx, hread⟩ := h members frames (',' :: (u ++ '}' :: u')) (delimited_of_mem (by decide))
  have hnext := hread.trans (reads_token hx .valueSeparator (u ++ '}' :: u') rfl)
  simp only [List.cons_append, List.append_assoc]
  exact hnext.trans (hs _ frames u')

/-- A value between blanks is read from its spelling. -/
theorem elementReads_of_spells
    (hn : ∀ l v, number l v → l.Denotes v ∨ mayFail ∧ l.token = .error .numberOutOfRange)
    (h : SpellsElement number order t v) : ElementReads order mayFail t v := by
  refine @SpellsElement.rec number order
    (fun t v _ => ValueReads order mayFail t v) (fun t v _ => ElementReads order mayFail t v)
    (fun t vs _ => ElementsRead order mayFail t vs) (fun t p _ => MemberReads order mayFail t p)
    (fun t ps _ => MembersRead order mayFail t ps)
    (fun w frames u hw hu => reads_token hw .null u rfl)
    (fun w frames u hw hu => reads_token hw .true u rfl)
    (fun w frames u hw hu => reads_token hw .false u rfl)
    (fun hl => valueReads_number (hn _ _ hl))
    (fun hs w frames u hw hu => reads_token hw (.string hs) u rfl)
    (fun hx => valueReads_emptyArray hx)
    (fun hspell h => valueReads_array hspell h)
    (fun hx => valueReads_emptyObject hx) ?_
    (fun hw _ hx h => elementReads_mk hw h hx)
    (fun _ h => elementsRead_one h) (fun _ _ h hs => elementsRead_more h hs)
    (fun hw hk hx _ h => memberReads_mk hw hk hx h)
    (fun _ h => membersRead_one h) (fun _ _ h hs => membersRead_more h hs) t v h
  intro t ps m hspell hm h
  obtain rfl := Members.collects_iff.mp hm
  exact valueReads_object hspell h

end ReadState

namespace Document

open ReadState

variable {number : NumberLiteral → Value → Prop} {order : MemberOrder} {text : String} {v : Value}

theorem parseSource_eq_result (options : ReadOptions) (cs : List Char) :
    parseSource options cs = result (start.run options ⟨Answer.chars cs, 0, false⟩) := by
  rw [parseSource, answers_chars]
  rfl

theorem parse_eq_result (order : MemberOrder) (text : String) :
    parse order text =
      result (start.run (unlimited order) ⟨Answer.chars text.toList, 0, false⟩) :=
  parseSource_eq_result _ _

theorem exists_of_result {α : Type} {r : EStateM.Result Cause Cursor α} {x : α}
    (h : result r = .ok x) : ∃ fin, r = .ok x fin := by
  cases r with
  | ok y fin =>
    cases h
    exact ⟨fin, rfl⟩
  | error cause fin => cases h

theorem accepts_of_parse (h : parse order text = .ok v) :
    start.Accepts (unlimited order) text.toList v := by
  rw [parse_eq_result] at h
  obtain ⟨fin, hrun⟩ := exists_of_result h
  exact ⟨0, false, fin, hrun⟩

/-- A text that spells a value is read as it, unless a number is out of range. -/
theorem parse_of_spells {mayFail : Prop}
    (hn : ∀ l v, number l v → l.Denotes v ∨ mayFail ∧ l.token = .error .numberOutOfRange)
    (h : SpellsElement number order text.toList v) :
    parse order text = .ok v ∨
      mayFail ∧ ∃ n, parse order text = .error ⟨.numberOutOfRange, n⟩ := by
  obtain ⟨x, hx, hread⟩ := elementReads_of_spells hn h [] [] delimited_nil
  rw [List.append_nil, List.append_nil] at hread
  rw [parse_eq_result]
  rcases hread 0 false with ⟨m, q, hrun⟩ | ⟨hfail, fin, hrun⟩
  · obtain ⟨m', q', hscan⟩ := (ScansTo.endOfInput hx).exists_scan m q
    left
    rw [start, hrun, supply, run_of_scan_end hscan]
    rfl
  · right
    rw [start, hrun]
    exact ⟨hfail, fin.offset, rfl⟩

/-- A value is read iff the text spells it by the grammar, with the number that each literal denotes;
so each literal is read as a number.  What spells a value with numbers in the place of the literals
that are out of range is read as it or refused for one of them, and what spells any value is read as
one or refused for this reason only. -/
theorem parse_grammar (order : MemberOrder) (text : String) :
    (∀ v, parse order text = .ok v ↔ SpellsElement NumberLiteral.Denotes order text.toList v) ∧
    (∀ v, parse order text = .ok v →
      SpellsElement (fun _ x => x.IsNumber) order text.toList v) ∧
    (∀ v, SpellsElement (fun l x => l.Denotes x ∨ l.token = .error .numberOutOfRange) order
        text.toList v →
      parse order text = .ok v ∨ ∃ n, parse order text = .error ⟨.numberOutOfRange, n⟩) ∧
    ((∃ v, SpellsElement (fun _ x => x.IsNumber) order text.toList v) →
      (∃ v, parse order text = .ok v) ∨
        ∃ n, parse order text = .error ⟨.numberOutOfRange, n⟩) := by
  have hcomplete : ∀ v, SpellsElement (fun l x => l.Denotes x ∨ l.token = .error .numberOutOfRange)
      order text.toList v →
        parse order text = .ok v ∨ ∃ n, parse order text = .error ⟨.numberOutOfRange, n⟩ := by
    intro v h
    have hliteral : ∀ (l : NumberLiteral) (x : Value),
        l.Denotes x ∨ l.token = .error .numberOutOfRange →
          l.Denotes x ∨ True ∧ l.token = .error .numberOutOfRange :=
      fun l x hl => hl.imp_right fun hfail => ⟨trivial, hfail⟩
    exact (parse_of_spells hliteral h).imp_right And.right
  refine ⟨fun v => ⟨fun h => ?_, fun h => ?_⟩, fun v h => ?_, hcomplete, ?_⟩
  · exact spellsElement_of_accepts (fun _ _ hx => hx) (accepts_of_parse h)
  · have hliteral : ∀ (l : NumberLiteral) (x : Value), l.Denotes x →
        l.Denotes x ∨ False ∧ l.token = .error .numberOutOfRange := fun _ _ hx => Or.inl hx
    exact (parse_of_spells hliteral h).resolve_right fun hfail => hfail.1
  · exact spellsElement_of_accepts (fun _ _ hx => hx.isNumber) (accepts_of_parse h)
  · rintro ⟨v, h⟩
    -- a literal that is out of range may stand for any value: it will not be read
    have hliteral : ∀ (l : NumberLiteral) (x : Value), x.IsNumber →
        ∃ y, l.Denotes y ∨ l.token = .error .numberOutOfRange := by
      intro l _ _
      rcases l.exists_denotes with ⟨y, hy⟩ | hfail
      · exact ⟨y, Or.inl hy⟩
      · exact ⟨.null, Or.inr hfail⟩
    obtain ⟨x, hx⟩ := h.exists_of hliteral
    exact (hcomplete x hx).imp_left fun hok => ⟨x, hok⟩

end Document

end JsonDoc
