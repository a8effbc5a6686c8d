import JsonDoc.Dump.Basic
import JsonDoc.Proofs.Document.Completeness
import JsonDoc.Proofs.Dump.Number
import JsonDoc.Proofs.Value.Keyed

/-!
# What is written is read back

The text of a value spells, by the grammar of documents, a value with the same tree
(`Value.exists_spells_runs`), and so it is read as that value.  Only the numbers may change: a
finite one is rounded to some digits, and what is not finite is written as null.
-/

namespace JsonDoc

namespace Value

/-! ### Trees -/

mutual

/-- The second value has the tree of the first: it is the same but for a number at the place of a
finite floating point number, and null at the place of one that is not finite. -/
inductive Restores : Value → Value → Prop
  | null : Restores .null .null
  | bool (b : Bool) : Restores (.bool b) (.bool b)
  | integer (i : Int64) : Restores (.integer i) (.integer i)
  | finite {x : Binary64} {w : Value} (hx : x.isFinite) (hw : w.IsNumber) : Restores (.float x) w
  | notFinite {x : Binary64} (hx : ¬ x.isFinite) : Restores (.float x) .null
  | string (s : String) : Restores (.string s) (.string s)
  | array {xs ws : List Value} (h : RestoresElements xs ws) : Restores (.array xs) (.array ws)
  | object {members written : List (String × Value)} (h : RestoresMembers members written) :
      Restores (.object ⟨members⟩) (.object ⟨written⟩)

/-- Elements at the same places have the same trees. -/
inductive RestoresElements : List Value → List Value → Prop
  | nil : RestoresElements [] []
  | cons {x w : Value} {xs ws : List Value} (h : Restores x w) (hs : RestoresElements xs ws) :
      RestoresElements (x :: xs) (w :: ws)

/-- Members at the same places have the same keys, and values with the same trees. -/
inductive RestoresMembers : List (String × Value) → List (String × Value) → Prop
  | nil : RestoresMembers [] []
  | cons {key : String} {x w : Value} {members written : List (String × Value)}
      (h : Restores x w) (hs : RestoresMembers members written) :
      RestoresMembers ((key, x) :: members) ((key, w) :: written)

end

mutual

/-- The value with others at the places of its floating point numbers. -/
def mapFloats (f : Binary64 → Value) : Value → Value
  | float x => f x
  | array elements => array (mapFloatsElements f elements)
  | object ⟨entries⟩ => object ⟨mapFloatsMembers f entries⟩
  | v => v

def mapFloatsElements (f : Binary64 → Value) : List Value → List Value
  | [] => []
  | x :: xs => x.mapFloats f :: mapFloatsElements f xs

def mapFloatsMembers (f : Binary64 → Value) : List (String × Value) → List (String × Value)
  | [] => []
  | (key, x) :: members => (key, x.mapFloats f) :: mapFloatsMembers f members

end

variable {f : Binary64 → Value}

theorem map_fst_mapFloatsMembers (members : List (String × Value)) :
    (mapFloatsMembers f members).map Prod.fst = members.map Prod.fst := by
  induction members with
  | nil => rfl
  | cons p members ih => rw [mapFloatsMembers, List.map_cons, List.map_cons, ih]

mutual

/-- Other numbers at their places leave the tree as it is. -/
theorem restores_mapFloats (hf : ∀ x, (float x).Restores (f x)) (v : Value) :
    v.Restores (v.mapFloats f) := by
  match v with
  | null => exact .null
  | bool b => exact .bool b
  | integer i => exact .integer i
  | float x => exact hf x
  | string s => exact .string s
  | array xs => exact .array (restores_mapFloatsElements hf xs)
  | object ⟨entries⟩ => exact .object (restores_mapFloatsMembers hf entries)

theorem restores_mapFloatsElements (hf : ∀ x, (float x).Restores (f x)) (xs : List Value) :
    RestoresElements xs (mapFloatsElements f xs) := by
  match xs with
  | [] => exact .nil
  | x :: xs => exact .cons (restores_mapFloats hf x) (restores_mapFloatsElements hf xs)

theorem restores_mapFloatsMembers (hf : ∀ x, (float x).Restores (f x))
    (members : List (String × Value)) : RestoresMembers members (mapFloatsMembers f members) := by
  match members with
  | [] => exact .nil
  | (key, x) :: members =>
    exact .cons (restores_mapFloats hf x) (restores_mapFloatsMembers hf members)

end

end Value

/-! ### The text of blanks, keys and numbers -/

/-- What is written can be read back: lines are indented by what may stand between tokens, and the
count of digits is possible. -/
structure DumpOptions.IsReadable (o : DumpOptions) : Prop where
  isBlank_of_indent : o.indent = 0 ∨
    o.indentChar = ' ' ∨ o.indentChar = '\t' ∨ o.indentChar = '\n' ∨ o.indentChar = '\r'
  precision_pos : 0 < o.precision
  precision_le : o.precision ≤ mostPrecision

variable {order : MemberOrder} {o : DumpOptions} {t z : List Char} {v : Value}

theorem isBlanks_lineBreak (ho : o.IsReadable) (depth : ℕ) :
    IsBlanks (Run.text (o.lineBreak depth)) := by
  unfold DumpOptions.lineBreak
  split
  case isTrue => exact isBlanks_nil
  case isFalse hindent =>
    rw [Run.text_once_cons, List.singleton_append, isBlanks_cons]
    refine ⟨by decide, ?_⟩
    intro c hc
    simp only [Run.text_cons, Run.text_nil, List.append_nil, List.mem_flatten,
      List.mem_replicate] at hc
    obtain ⟨piece, ⟨-, rfl⟩, hc⟩ := hc
    rw [List.mem_singleton.mp hc]
    exact ho.isBlank_of_indent.resolve_left hindent

theorem SpellsElement.append_blanks {number : NumberLiteral → Value → Prop}
    (h : SpellsElement number order t v) (hz : IsBlanks z) :
    SpellsElement number order (t ++ z) v := by
  cases h with
  | mk hw h hx =>
    rw [List.append_assoc, List.append_assoc]
    exact .mk hw h (hx.append hz)

theorem SpellsMember.append_blanks {number : NumberLiteral → Value → Prop} {p : String × Value}
    (h : SpellsMember number order t p) (hz : IsBlanks z) :
    SpellsMember number order (t ++ z) p := by
  cases h with
  | mk hw hk hx h =>
    simp only [List.append_assoc, List.cons_append]
    have := SpellsMember.mk hw hk hx (h.append_blanks hz)
    simpa only [List.append_assoc, List.cons_append] using this

/-- A key is written before a value as the grammar has it. -/
theorem spellsMember_keyRuns {number : NumberLiteral → Value → Prop} {w : List Char}
    (hw : IsBlanks w) (key : String) (h : SpellsValue number order t v) :
    SpellsMember number order (w ++ (Run.text (o.keyRuns key) ++ t)) (key, v) := by
  obtain ⟨k, hpieces, hk⟩ := Dump.exists_spellsString o.escapeUnicode key
  obtain ⟨blank, hblank, hcolon⟩ : ∃ blank, IsBlanks blank ∧
      (if o.indent = 0 then [':'] else [':', ' ']) = ':' :: blank := by
    split
    · exact ⟨[], isBlanks_nil, rfl⟩
    · exact ⟨[' '], isBlanks_cons.mpr ⟨Or.inl rfl, isBlanks_nil⟩, rfl⟩
  have hmember := SpellsMember.mk hw hk isBlanks_nil (.mk hblank h isBlanks_nil)
  rw [String.ofList_toList] at hmember
  rw [DumpOptions.keyRuns, Run.text_append, Run.text_map_once, Run.text_once_cons, Run.text_nil,
    hpieces, hcolon]
  simpa using hmember

theorem exists_spells_integer (i : Int64) :
    ∃ l : NumberLiteral, (Dump.integerPieces i.toInt).flatten = l.text ∧
      l.Denotes (.integer i) := by
  obtain ⟨l, htext, htoken⟩ := Dump.exists_integer_literal i
  exact ⟨l, htext, Or.inl ⟨i, htoken, rfl⟩⟩

theorem spells_zero (count : ℕ) (negative : Bool) {m : Magnitude} (hm : m.code = 0) :
    SpellsValue NumberLiteral.Denotes order (Dump.floatPieces count (.finite negative m)).flatten
      (.integer 0) := by
  obtain ⟨l, htext, hl⟩ := exists_spells_integer 0
  rw [Dump.flatten_floatPieces_zero count negative hm, htext]
  exact .number hl

/-- A floating point number is written as a number, or as null. -/
theorem exists_spells_float {count : ℕ} (hpos : 0 < count) (hcount : count ≤ mostPrecision)
    (x : Binary64) :
    ∃ w, (Value.float x).Restores w ∧
      SpellsValue NumberLiteral.Denotes order (Dump.floatPieces count x).flatten w := by
  cases x with
  | nan => exact ⟨.null, .notFinite (by decide), .null⟩
  | infinite negative => exact ⟨.null, .notFinite (by simp [Binary64.isFinite]), .null⟩
  | finite negative m =>
    obtain ⟨l, tok, htext, htoken⟩ := Dump.exists_float_literal hpos hcount negative m
    rw [htext]
    rcases NumberLiteral.denotes_of_token htoken with ⟨i, -, hl⟩ | ⟨y, -, hl⟩
    · exact ⟨.integer i, .finite rfl hl.isNumber, .number hl⟩
    · exact ⟨.float y, .finite rfl hl.isNumber, .number hl⟩

/-! ### The text of values -/

namespace Value

/-- The text of every floating point number spells what stands for it. -/
def SpellsFloats (order : MemberOrder) (count : ℕ) (f : Binary64 → Value) : Prop :=
  ∀ x, SpellsValue NumberLiteral.Denotes order (Dump.floatPieces count x).flatten (f x)

section

variable {f : Binary64 → Value} (ho : o.IsReadable)

include ho

mutual

/-- The text of a value spells the value, but for the floating point numbers. -/
theorem spells_runs (hf : SpellsFloats order o.precision f) (depth : ℕ) (v : Value)
    (hv : v.Keyed order) :
    SpellsValue NumberLiteral.Denotes order (Run.text (v.runs o depth [])) (v.mapFloats f) := by
  match v with
  | null => exact .null
  | bool true => exact .true
  | bool false => exact .false
  | integer i =>
    obtain ⟨l, htext, hl⟩ := exists_spells_integer i
    rw [runs, List.append_nil, Run.text_map_once, htext]
    exact .number hl
  | float x =>
    rw [runs, List.append_nil, Run.text_map_once]
    exact hf x
  | string s =>
    obtain ⟨k, hpieces, hk⟩ := Dump.exists_spellsString o.escapeUnicode s
    have hspell := @SpellsValue.string NumberLiteral.Denotes order _ _ hk
    rw [String.ofList_toList] at hspell
    rw [runs, List.append_nil, Run.text_map_once, hpieces]
    exact hspell
  | array [] => exact .emptyArray isBlanks_nil
  | array (x :: xs) =>
    obtain ⟨hx, hxs⟩ := hv
    have hfirst := SpellsElement.mk (isBlanks_lineBreak ho (depth + 1))
      (spells_runs hf (depth + 1) x hx) isBlanks_nil
    have harray := SpellsValue.array
      (spells_elementRuns hf (depth + 1) xs hxs (isBlanks_lineBreak ho depth) hfirst)
    rw [runs, runs_eq_append, elementRuns_eq_append, mapFloats, mapFloatsElements]
    simpa [Run.text_once_cons, Run.text_append, Run.text_nil] using harray
  | object ⟨[]⟩ => exact .emptyObject isBlanks_nil
  | object ⟨(key, x) :: members⟩ =>
    obtain ⟨hkeys, hx, hmembers⟩ := hv
    have hfirst := spellsMember_keyRuns (o := o) (isBlanks_lineBreak ho (depth + 1)) key
      (spells_runs hf (depth + 1) x hx)
    have hkeys' : (mapFloatsMembers f ((key, x) :: members)).map Prod.fst =
        ((key, x) :: members).map Prod.fst := map_fst_mapFloatsMembers _
    have hobject := SpellsValue.object
      (spells_memberRuns hf (depth + 1) members hmembers (isBlanks_lineBreak ho depth) hfirst)
      (Members.collects_entries (hkeys.of_keys_eq hkeys'))
    rw [runs, runs_eq_append, memberRuns_eq_append, mapFloats, mapFloatsMembers]
    simpa [Run.text_once_cons, Run.text_append, Run.text_nil] using hobject

/-- The elements after a first one, and blanks, continue it. -/
theorem spells_elementRuns (hf : SpellsFloats order o.precision f) (depth : ℕ) (xs : List Value)
    (hxs : KeyedElements order xs) {z : List Char} (hz : IsBlanks z) {t : List Char} {w : Value}
    (h : SpellsElement NumberLiteral.Denotes order t w) :
    SpellsElements NumberLiteral.Denotes order
      (t ++ (Run.text (elementRuns o depth xs []) ++ z)) (w :: mapFloatsElements f xs) := by
  match xs with
  | [] => exact .one (h.append_blanks hz)
  | x :: xs =>
    obtain ⟨hx, hxs⟩ := hxs
    have hnext := SpellsElement.mk (isBlanks_lineBreak ho depth) (spells_runs hf depth x hx)
      isBlanks_nil
    have hmore := SpellsElements.more h (spells_elementRuns hf depth xs hxs hz hnext)
    rw [elementRuns, runs_eq_append, mapFloatsElements]
    simpa [Run.text_once_cons, Run.text_append] using hmore

/-- And so do the members after a first one. -/
theorem spells_memberRuns (hf : SpellsFloats order o.precision f) (depth : ℕ)
    (members : List (String × Value)) (hmembers : KeyedMembers order members) {z : List Char}
    (hz : IsBlanks z) {t : List Char} {p : String × Value}
    (h : SpellsMember NumberLiteral.Denotes order t p) :
    SpellsMembers NumberLiteral.Denotes order
      (t ++ (Run.text (memberRuns o depth members []) ++ z)) (p :: mapFloatsMembers f members) := by
  match members with
  | [] => exact .one (h.append_blanks hz)
  | (key, x) :: members =>
    obtain ⟨hx, hmembers⟩ := hmembers
    have hnext := spellsMember_keyRuns (o := o) (isBlanks_lineBreak ho depth) key
      (spells_runs hf depth x hx)
    have hmore := SpellsMembers.more h (spells_memberRuns hf depth members hmembers hz hnext)
    rw [memberRuns, runs_eq_append, mapFloatsMembers]
    simpa [Run.text_once_cons, Run.text_append] using hmore

end

end

/-- The text of a value spells a value with the same tree. -/
theorem exists_spells_runs (ho : o.IsReadable) (depth : ℕ) (v : Value) (hv : v.Keyed order) :
    ∃ w, v.Restores w ∧
      SpellsValue NumberLiteral.Denotes order (Run.text (v.runs o depth [])) w := by
  choose f hrestores hspells using fun x =>
    @exists_spells_float order _ ho.precision_pos ho.precision_le x
  exact ⟨v.mapFloats f, restores_mapFloats hrestores v, spells_runs ho hspells depth v hv⟩

end Value

/-! ### Documents -/

theorem DumpOptions.isReadable_withPrecision
    (ho : o.indent = 0 ∨
      o.indentChar = ' ' ∨ o.indentChar = '\t' ∨ o.indentChar = '\n' ∨ o.indentChar = '\r') :
    (o.withPrecision o.precision).IsReadable :=
  ⟨ho, (o.withPrecision_bounds _).1, (o.withPrecision_bounds _).2⟩

/-- The value that a text spells is read from it. -/
theorem Document.parse_of_spellsValue {text : String} {w : Value}
    (h : SpellsValue NumberLiteral.Denotes order text.toList w) : Document.parse order text = .ok w := by
  have helement := SpellsElement.mk isBlanks_nil h isBlanks_nil
  rw [List.nil_append, List.append_nil] at helement
  rcases @Document.parse_of_spells _ _ _ _ False (fun _ _ h => Or.inl h) helement with
    hok | ⟨hfail, -⟩
  · exact hok
  · exact absurd hfail id

theorem Document.parse_dumpWith_of_spells {w : Value}
    (h : SpellsValue NumberLiteral.Denotes order (Run.text (v.documentRuns o)) w) :
    Document.parse order (v.dumpWith o) = .ok w := by
  refine Document.parse_of_spellsValue ?_
  rw [Value.dumpWith, String.toList_ofList]
  exact h

/-- What a value is written as, with any options that indent lines by what may stand between tokens,
is read, and restores the tree of the value. -/
theorem Document.parse_dumpWith (order : MemberOrder) {o : DumpOptions} {v : Value}
    (ho : o.indent = 0 ∨
      o.indentChar = ' ' ∨ o.indentChar = '\t' ∨ o.indentChar = '\n' ∨ o.indentChar = '\r')
    (hv : v.Keyed order) :
    ∃ w, Document.parse order (v.dumpWith o) = .ok w ∧ v.Restores w := by
  obtain ⟨w, hw, hspell⟩ :=
    Value.exists_spells_runs (DumpOptions.isReadable_withPrecision ho) 0 v hv
  exact ⟨w, Document.parse_dumpWith_of_spells hspell, hw⟩

/-- An object whose keys are in no order, with a number that is written as null. -/
theorem Document.parse_pretty :
    (Value.object ⟨[("b", .array [.float .nan, .integer .minValue]), ("a", .string "\n")]⟩).Keyed
        .insertion ∧
      ∃ w, Document.parse .insertion (Value.dumpWith (.pretty 2)
          (.object ⟨[("b", .array [.float .nan, .integer .minValue]), ("a", .string "\n")]⟩)) =
          .ok w ∧
        Value.Restores
          (.object ⟨[("b", .array [.float .nan, .integer .minValue]), ("a", .string "\n")]⟩) w := by
  have hkeyed : (Value.object ⟨[("b", .array [.float .nan, .integer .minValue]),
      ("a", .string "\n")]⟩).Keyed .insertion :=
    ⟨by simp [Members.WellKeyed, Members.keys], ⟨trivial, trivial, trivial⟩, trivial, trivial⟩
  exact ⟨hkeyed, Document.parse_dumpWith .insertion (Or.inr (Or.inl rfl)) hkeyed⟩

end JsonDoc
