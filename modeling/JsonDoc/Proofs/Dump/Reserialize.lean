import JsonDoc.Document.Reserialize
import JsonDoc.Proofs.Document.Encoding
import JsonDoc.Proofs.Dump.Layout
import JsonDoc.Proofs.Dump.Rewritten
import JsonDoc.Proofs.Source.Reader
import JsonDoc.Proofs.Value.Parts

/-!
# Documents that are written again

The text of a value is read as the value with other numbers at the places of its floating point
numbers, and this is written as the same text iff the digits of no number drift
(`Value.text_mapFloats_runs_eq_iff`).  So a document that has been written is written in the same
way ever after, unless a number in it drifts (`Document.reserialize_again`).
-/

namespace JsonDoc

namespace Value

/-! ### Numbers that drift -/

/-- The digits of a number in the value drift. -/
def Drifts (count : ℕ) (v : Value) : Prop := ∃ x, (float x).PartOf v ∧ x.Drifts count

section

variable {count : ℕ} {x : Value} {xs : List Value} {p : String × Value}
  {members : List (String × Value)}

theorem drifts_float_iff {y : Binary64} : (float y).Drifts count ↔ y.Drifts count := by
  simp [Drifts]

theorem drifts_array_cons_iff :
    (array (x :: xs)).Drifts count ↔ x.Drifts count ∨ (array xs).Drifts count := by
  simp [Drifts, or_and_right, exists_or]

theorem drifts_object_cons_iff :
    (object ⟨p :: members⟩).Drifts count ↔ p.2.Drifts count ∨ (object ⟨members⟩).Drifts count := by
  simp [Drifts, or_and_right, exists_or]

end

/-! ### The text of a value with other numbers -/

section

variable {o : DumpOptions} {f : Binary64 → Value}

/-- What holds no number is written as it is. -/
theorem text_runs_eq_iff {v : Value} (hv : ¬ v.Drifts o.precision) (depth : ℕ) (r r' : List Run) :
    Run.text (v.runs o depth r') = Run.text (v.runs o depth r) ↔
      ¬ v.Drifts o.precision ∧ Run.text r' = Run.text r := by
  rw [runs_eq_append o depth v r, runs_eq_append o depth v r', Run.text_append, Run.text_append,
    List.append_cancel_left_eq, iff_and_self]
  exact fun _ => hv

mutual

/-- The same text is written with other numbers iff none of the digits drifts. -/
theorem text_mapFloats_runs_eq_iff (ho : o.IsReadable) (hf : ∀ x, (f x).Rewrites o x) (depth : ℕ)
    (v : Value) {r r' : List Run} (hr : Delimited (Run.text r)) (hr' : Delimited (Run.text r')) :
    Run.text ((v.mapFloats f).runs o depth r') = Run.text (v.runs o depth r) ↔
      ¬ v.Drifts o.precision ∧ Run.text r' = Run.text r := by
  match v with
  | null => exact @text_runs_eq_iff o null (by simp [Drifts]) depth r r'
  | bool b => exact @text_runs_eq_iff o (bool b) (by simp [Drifts]) depth r r'
  | integer i => exact @text_runs_eq_iff o (integer i) (by simp [Drifts]) depth r r'
  | string s => exact @text_runs_eq_iff o (string s) (by simp [Drifts]) depth r r'
  | float x =>
    rw [drifts_float_iff]
    exact hf x depth r r' hr hr'
  | array [] => exact @text_runs_eq_iff o (array []) (by simp [Drifts]) depth r r'
  | array (x :: xs) =>
    have hend := delimited_lineBreak ho depth (@delimited_once ']' r (by decide))
    have hend' := delimited_lineBreak ho depth (@delimited_once ']' r' (by decide))
    simp only [mapFloats, mapFloatsElements, runs, Run.text_once_cons, Run.text_append,
      List.append_cancel_left_eq]
    rw [text_mapFloats_runs_eq_iff ho hf (depth + 1) x (delimited_elementRuns o _ _ hend)
        (delimited_elementRuns o _ _ hend'),
      text_mapFloats_elementRuns_eq_iff ho hf (depth + 1) xs hend hend', drifts_array_cons_iff,
      not_or, and_assoc]
    simp only [Run.text_once_cons, Run.text_append, List.append_cancel_left_eq]
  | object ⟨[]⟩ => exact @text_runs_eq_iff o (object ⟨[]⟩) (by simp [Drifts]) depth r r'
  | object ⟨(key, x) :: members⟩ =>
    have hend := delimited_lineBreak ho depth (@delimited_once '}' r (by decide))
    have hend' := delimited_lineBreak ho depth (@delimited_once '}' r' (by decide))
    simp only [mapFloats, mapFloatsMembers, runs, Run.text_once_cons, Run.text_append,
      List.append_cancel_left_eq]
    rw [text_mapFloats_runs_eq_iff ho hf (depth + 1) x (delimited_memberRuns o _ _ hend)
        (delimited_memberRuns o _ _ hend'),
      text_mapFloats_memberRuns_eq_iff ho hf (depth + 1) members hend hend', drifts_object_cons_iff,
      not_or, and_assoc]
    simp only [Run.text_once_cons, Run.text_append, List.append_cancel_left_eq]

theorem text_mapFloats_elementRuns_eq_iff (ho : o.IsReadable) (hf : ∀ x, (f x).Rewrites o x)
    (depth : ℕ) (xs : List Value) {r r' : List Run} (hr : Delimited (Run.text r))
    (hr' : Delimited (Run.text r')) :
    Run.text (elementRuns o depth (mapFloatsElements f xs) r') =
        Run.text (elementRuns o depth xs r) ↔
      ¬ (array xs).Drifts o.precision ∧ Run.text r' = Run.text r := by
  match xs with
  | [] => simp [mapFloatsElements, elementRuns, Drifts]
  | x :: xs =>
    simp only [mapFloatsElements, elementRuns, Run.text_once_cons, Run.text_append,
      List.append_cancel_left_eq]
    rw [text_mapFloats_runs_eq_iff ho hf depth x (delimited_elementRuns o _ _ hr)
        (delimited_elementRuns o _ _ hr'), text_mapFloats_elementRuns_eq_iff ho hf depth xs hr hr',
      drifts_array_cons_iff, not_or, and_assoc]

theorem text_mapFloats_memberRuns_eq_iff (ho : o.IsReadable) (hf : ∀ x, (f x).Rewrites o x)
    (depth : ℕ) (members : List (String × Value)) {r r' : List Run} (hr : Delimited (Run.text r))
    (hr' : Delimited (Run.text r')) :
    Run.text (memberRuns o depth (mapFloatsMembers f members) r') =
        Run.text (memberRuns o depth members r) ↔
      ¬ (object ⟨members⟩).Drifts o.precision ∧ Run.text r' = Run.text r := by
  match members with
  | [] => simp [mapFloatsMembers, memberRuns, Drifts]
  | (key, x) :: members =>
    simp only [mapFloatsMembers, memberRuns, Run.text_once_cons, Run.text_append,
      List.append_cancel_left_eq]
    rw [text_mapFloats_runs_eq_iff ho hf depth x (delimited_memberRuns o _ _ hr)
        (delimited_memberRuns o _ _ hr'),
      text_mapFloats_memberRuns_eq_iff ho hf depth members hr hr', drifts_object_cons_iff, not_or,
      and_assoc]

end

end

end Value

/-! ### Documents -/

namespace Document

variable {order : MemberOrder} {o : DumpOptions} {bytes : List UInt8} {s : String} {v : Value}

/-- A reader of bytes gives the document that the bytes are. -/
theorem parseSource_reader (options : ReadOptions) (bytes : List UInt8) :
    parseSource options (⟨bytes.map .byte⟩ : PlainReader) = parseSource options bytes := by
  have hempty : ∀ (r : PlainReader) (bytes : List UInt8), r.events = bytes.map .byte →
      CharSource.isEmpty r = CharSource.isEmpty bytes := by
    rintro ⟨_⟩ bytes rfl
    cases bytes <;> rfl
  rw [parseSource, parseSource, answers_eq_of_runsMatch
    (Utf8.runsMatch_nextChar PlainReader.runsMatch_bytes) hempty rfl]

theorem reserialize_eq_some_iff :
    reserialize o bytes = some s ↔ ∃ v, parseUtf8 .insertion bytes = .ok v ∧ v.dumpWith o = s := by
  unfold reserialize
  rw [parseSource_reader, ← parseUtf8]
  cases parseUtf8 .insertion bytes with
  | ok v => simp
  | error e => simp

/-- Bytes that are read as a document are a text. -/
theorem exists_text_of_parseUtf8 (h : parseUtf8 order bytes = .ok v) :
    ∃ text : String, bytes = text.toList.flatMap Utf8.encode ∧ parse order text = .ok v := by
  by_cases htext : ∃ cs : List Char, bytes = cs.flatMap Utf8.encode
  · obtain ⟨cs, rfl⟩ := htext
    rw [parseUtf8, parseSource_text Utf8.decodes] at h
    exact ⟨String.ofList cs, by rw [String.toList_ofList], by rwa [parse, String.toList_ofList]⟩
  · obtain ⟨cs, unit, rest, -, -, -, hfailed | ⟨e, herror, -⟩⟩ :=
      parseSource_malformed Utf8.decodes (unlimited order) (not_exists.mp htext)
    · cases h.symm.trans hfailed
    · cases h.symm.trans herror

/-- The text of a value is read as a value that is written in the same way, unless a number
drifts. -/
theorem exists_parse_dumpWith
    (ho : o.indent = 0 ∨
      o.indentChar = ' ' ∨ o.indentChar = '\t' ∨ o.indentChar = '\n' ∨ o.indentChar = '\r')
    (hv : v.Keyed order) :
    ∃ w, parse order (v.dumpWith o) = .ok w ∧
      (w.dumpWith o = v.dumpWith o ↔ ¬ v.Drifts (o.withPrecision o.precision).precision) := by
  have ho' := DumpOptions.isReadable_withPrecision ho
  choose f hspells hrewrites using exists_spells_rewrites order ho'
  refine ⟨v.mapFloats f, parse_dumpWith_of_spells (Value.spells_runs ho' hspells 0 v hv), ?_⟩
  have hend : Delimited (Run.text []) := delimited_nil
  rw [Value.dumpWith, Value.dumpWith, String.ofList_inj, Value.documentRuns, Value.documentRuns,
    Value.text_mapFloats_runs_eq_iff ho' hrewrites 0 v hend hend]
  exact and_iff_left rfl

/-- A text is written as the value that it spells. -/
theorem reserialize_of_spells {t : List Char}
    (h : SpellsValue NumberLiteral.Denotes .insertion t v) :
    reserialize o (t.flatMap Utf8.encode) = some (v.dumpWith o) := by
  refine reserialize_eq_some_iff.mpr ⟨v, ?_, rfl⟩
  have htext := @parse_of_spellsValue .insertion (String.ofList t) v
  rw [parse, String.toList_ofList] at htext
  rw [parseUtf8, parseSource_text Utf8.decodes]
  exact htext h

/-- A document that has been written is read and written again, and its text is the same iff no
number drifts: none is written as a power of ten whose nearest number is so far below it that its
own digits are others. -/
theorem reserialize_again
    (ho : o.indent = 0 ∨
      o.indentChar = ' ' ∨ o.indentChar = '\t' ∨ o.indentChar = '\n' ∨ o.indentChar = '\r')
    (h : reserialize o bytes = some s) :
    ∃ v, parseUtf8 .insertion bytes = .ok v ∧ v.dumpWith o = s ∧
      ∃ s', reserialize o (s.toList.flatMap Utf8.encode) = some s' ∧
        (s' = s ↔ ¬ v.Drifts (o.withPrecision o.precision).precision) := by
  obtain ⟨v, hv, rfl⟩ := reserialize_eq_some_iff.mp h
  obtain ⟨text, -, htext⟩ := exists_text_of_parseUtf8 hv
  obtain ⟨w, hw, hiff⟩ := exists_parse_dumpWith ho (keyed_of_parse htext)
  refine ⟨v, hv, rfl, w.dumpWith o, reserialize_eq_some_iff.mpr ⟨w, ?_, rfl⟩, hiff⟩
  rw [parseUtf8, parseSource_text Utf8.decodes]
  exact hw

/-! ### A number just above a power of ten -/

/-- The number after the nearest one to `10 ^ 23`, which is below it. -/
def abovePower : NumberLiteral where
  negative := false
  integer := ⟨"1".toList, fun _ => List.all_eq_true.mp (by decide) _, by decide⟩
  no_leading_zero := by decide
  fraction :=
    some ⟨"0000000000000001".toList, fun _ => List.all_eq_true.mp (by decide) _, by decide⟩
  exponent := some (Dump.exponentPart 23)

/-- The power of ten that it is written as, with sixteen digits. -/
def powerOfTen : NumberLiteral where
  negative := false
  integer := ⟨"1".toList, fun _ => List.all_eq_true.mp (by decide) _, by decide⟩
  no_leading_zero := by decide
  fraction := none
  exponent := some (Dump.exponentPart 23)

theorem denotes_abovePower :
    abovePower.Denotes (.float (.finite false ⟨0x44B52D02C7E14AF7, by decide⟩)) :=
  Or.inr ⟨_, by decide +kernel, rfl⟩

theorem denotes_powerOfTen :
    powerOfTen.Denotes (.float (.finite false ⟨0x44B52D02C7E14AF6, by decide⟩)) :=
  Or.inr ⟨_, by decide +kernel, rfl⟩

/-- With all digits, and each element in a line that a tab indents, it is written as it was. -/
theorem reserialize_again_tabs :
    let o : DumpOptions := ⟨1, '\t', true, 20⟩
    let bytes := "[1.0000000000000001e+23]".toList.flatMap Utf8.encode
    let s := "[\n\t1.0000000000000001e+23\n]"
    (o.indentChar = '\t' ∧ reserialize o bytes = some s) ∧
      ∃ v, parseUtf8 .insertion bytes = .ok v ∧ v.dumpWith o = s ∧
        ∃ s', reserialize o (s.toList.flatMap Utf8.encode) = some s' ∧
          (s' = s ↔ ¬ v.Drifts (o.withPrecision o.precision).precision) := by
  intro o bytes s
  have hspells := @SpellsValue.array NumberLiteral.Denotes .insertion _ _
    (.one (.mk isBlanks_nil (.number denotes_abovePower) isBlanks_nil))
  have hwritten : reserialize o bytes = some s :=
    (reserialize_of_spells hspells).trans (congrArg some (by decide +kernel))
  exact ⟨⟨rfl, hwritten⟩, reserialize_again (Or.inr (Or.inr (Or.inl rfl))) hwritten⟩

/-- With sixteen digits it is written as the power of ten, and this as the number below. -/
theorem reserialize_power :
    DumpOptions.compact.indent = 0 ∧
      reserialize .compact ("1.0000000000000001e+23".toList.flatMap Utf8.encode) = some "1e+23" ∧
      reserialize .compact ("1e+23".toList.flatMap Utf8.encode) ≠ some "1e+23" := by
  have hfirst : reserialize .compact ("1.0000000000000001e+23".toList.flatMap Utf8.encode) =
      some "1e+23" :=
    (reserialize_of_spells (.number denotes_abovePower)).trans (congrArg some (by decide +kernel))
  have hagain : reserialize .compact ("1e+23".toList.flatMap Utf8.encode) =
      some "9.999999999999999e+22" :=
    (reserialize_of_spells (.number denotes_powerOfTen)).trans (congrArg some (by decide +kernel))
  refine ⟨rfl, hfirst, ?_⟩
  rw [hagain]
  decide

end Document

end JsonDoc
