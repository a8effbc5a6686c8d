import JsonDoc.Proofs.Dump.Writer

/-!
# What a sink is left with

A value is written one piece after another until one fails, by the calls that serialize it
(`CharSink.serialize_eq`) as by the runs that it is made of (`Sink.writeAll_eq_forM`).  A sink is a
writer with so much room (`Sink.writes_pieces`): without a limit it takes the whole text, one that
fills up takes as much of it as it has room for, and one that takes pieces as a whole takes those
before the first that does not fit (`Value.dumpTo_leaves`).
-/

namespace JsonDoc

variable {ε σ υ : Type}

namespace Sink

variable {s : Sink υ} {n : ℕ} {encode : Char → List υ} {fillsUp : Bool}

/-- A run that writes to a sink. -/
abbrev Writing (υ : Type) := EStateM SinkFull (Sink υ) Unit

/-! ### Sinks of pieces -/

theorem writeTimes_eq_forM (piece : Piece) (count : ℕ) :
    (writeTimes piece count : Writing υ) = forM (List.replicate count piece) write := by
  induction count with
  | zero => rfl
  | succ count ih => rw [writeTimes, List.replicate_succ, List.forM_cons, ih]

/-- Runs are written as their pieces are. -/
theorem writeAll_eq_forM (runs : List Run) :
    (writeAll runs : Writing υ) = forM (Run.pieces runs) write := by
  induction runs with
  | nil => rfl
  | cons run runs ih =>
    rw [writeAll, writeTimes_eq_forM, ih]
    exact List.forM_append.symm

theorem isLawful_calls (υ : Type) : (calls υ).IsLawful := ⟨fun _ => rfl⟩

/-- The units of pieces. -/
def units (encode : Char → List υ) (pieces : List Piece) : List υ := pieces.flatten.flatMap encode

theorem flatMap_pieces (encode : Char → List υ) (pieces : List Piece) :
    (pieces.flatMap fun piece => piece.flatMap encode) = units encode pieces := by
  rw [units, ← List.flatMap_id, List.flatMap_assoc]
  rfl

theorem units_append (encode : Char → List υ) (pieces₁ pieces₂ : List Piece) :
    units encode (pieces₁ ++ pieces₂) = units encode pieces₁ ++ units encode pieces₂ := by
  rw [units, List.flatten_append, List.flatMap_append]
  rfl

/-- A sink of a kind that has taken units and has room for so many more. -/
structure Holds (encode : Char → List υ) (fillsUp : Bool) (s : Sink υ) (taken : List υ) (n : ℕ) :
    Prop where
  encode_eq : s.encode = encode
  fillsUp_eq : s.fillsUp = fillsUp
  room_eq : s.room = some n
  written_eq : s.written.toList = taken

/-- A sink takes units if there is room for them, and fails otherwise. -/
theorem writes_units (encode : Char → List υ) (fillsUp : Bool) :
    Writes (writeUnits : List υ → Writing υ) id (Holds encode fillsUp) fillsUp where
  ok_of_le := by
    rintro s taken n units ⟨rfl, rfl, hroom, rfl⟩ hle
    refine ⟨{ s with room := some (n - units.length), written := s.written ++ units }, ?_, rfl, rfl,
      rfl, Array.toList_appendList⟩
    rw [writeUnits, hroom]
    exact if_pos hle
  error_of_lt := by
    rintro s taken n units ⟨rfl, rfl, hroom, rfl⟩ hlt
    have hfull : ¬ units.length ≤ n := hlt.not_ge
    cases hfills : s.fillsUp with
    | true =>
      refine ⟨.full, { s with room := some 0, written := s.written ++ units.take n }, 0, ?_, rfl,
        hfills, rfl, Array.toList_appendList⟩
      rw [writeUnits, hroom]
      exact (if_neg hfull).trans (if_pos hfills)
    | false =>
      refine ⟨.full, s, n, ?_, rfl, hfills, hroom, (List.append_nil _).symm⟩
      rw [writeUnits, hroom]
      exact (if_neg hfull).trans (if_neg (by rw [hfills]; decide))

/-- A sink takes pieces by their units. -/
theorem writes_pieces (encode : Char → List υ) (fillsUp : Bool) :
    Writes (write : Piece → Writing υ) (·.flatMap encode) (Holds encode fillsUp) fillsUp where
  ok_of_le := by
    intro s taken n piece hs hle
    rw [write, hs.encode_eq]
    exact (writes_units encode fillsUp).ok_of_le hs hle
  error_of_lt := by
    intro s taken n piece hs hlt
    rw [write, hs.encode_eq]
    exact (writes_units encode fillsUp).error_of_lt hs hlt

/-- Writing leaves a sink with these units, and fails iff this holds. -/
structure Leaves (r : EStateM.Result SinkFull (Sink υ) Unit) (taken : List υ) (fails : Prop) :
    Prop where
  written_eq : (stateAfter r).written.toList = taken
  fails_iff : (∃ s, r = .error .full s) ↔ fails

theorem leaves_of_ends {r : EStateM.Result SinkFull (Sink υ) Unit} {taken : List υ} {fails : Prop}
    (h : Ends r (Holds encode fillsUp) taken fails) : Leaves r taken fails := by
  obtain ⟨⟨left, hs⟩, hfails⟩ := h
  refine ⟨hs.written_eq, ?_⟩
  rw [← hfails]
  constructor
  · rintro ⟨s, hr⟩
    exact ⟨.full, s, hr⟩
  · rintro ⟨⟨⟩, s, hr⟩
    exact ⟨s, hr⟩

end Sink

/-! ### Values -/

namespace Value

open Sink

section Serialize

variable {out : CharSink (EStateM ε σ)} {encode : Char → List υ} {holds : σ → List υ → ℕ → Prop}
  {s : σ} {k : ℕ}

theorem units_documentRuns (encode : Char → List υ) (o : DumpOptions) (v : Value) :
    units encode (Run.pieces (v.documentRuns o)) = (v.dumpWith o).toList.flatMap encode := by
  rw [units, Run.flatten_pieces, dumpWith, String.toList_ofList]

/-- A sink that fills up is left with as much of the text as it has room for. -/
theorem ends_serialize (hout : out.IsLawful)
    (hw : Writes out.writeStr (·.flatMap encode) holds true) (hs : holds s [] k) (o : DumpOptions)
    (v : Value) : Ends (out.serialize o v s) holds (((v.dumpWith o).toList.flatMap encode).take k)
      (k < ((v.dumpWith o).toList.flatMap encode).length) := by
  have hends := hw.ends_of_fillsUp hs (Run.pieces (v.documentRuns o))
  rwa [flatMap_pieces, units_documentRuns, ← CharSink.serialize_eq hout] at hends

/-- A sink that takes pieces as a whole is left with those before the first that does not fit. -/
theorem exists_ends_serialize (hout : out.IsLawful)
    (hw : Writes out.writeStr (·.flatMap encode) holds false) (hs : holds s [] k)
    (o : DumpOptions) (v : Value) :
    ∃ before after, Run.pieces (v.documentRuns o) = before ++ after ∧
      Ends (out.serialize o v s) holds (units encode before)
        (k < ((v.dumpWith o).toList.flatMap encode).length) ∧
      (units encode before).length ≤ k ∧
      ∀ piece ∈ after.head?, k < (units encode (before ++ [piece])).length := by
  have hends := hw.exists_ends hs (Run.pieces (v.documentRuns o))
  simp only [flatMap_pieces] at hends
  rwa [units_documentRuns, ← CharSink.serialize_eq hout] at hends

end Serialize

variable {s : Sink υ} {k : ℕ}

theorem dumpTo_eq_forM (o : DumpOptions) (v : Value) :
    (v.dumpTo o : Writing υ) = forM (Run.pieces (v.documentRuns o)) write :=
  writeAll_eq_forM _

/-- Writing the runs of a value makes the calls that serialize it. -/
theorem dumpTo_eq_serialize (o : DumpOptions) (v : Value) :
    (v.dumpTo o : Writing υ) = (calls υ).serialize o v :=
  (dumpTo_eq_forM o v).trans (CharSink.serialize_eq (isLawful_calls υ) o v).symm

/-- A sink without a limit is left with the units of the text. -/
theorem leaves_dumpTo (h : s.room = none) (hempty : s.written = #[]) (o : DumpOptions)
    (v : Value) : Leaves (v.dumpTo o s) ((v.dumpWith o).toList.flatMap s.encode) False := by
  rw [dumpTo, writeAll_of_room_eq_none h, dumpWith, String.toList_ofList]
  exact ⟨by simp [stateAfter, hempty], by simp⟩

theorem leaves_dumpTo_of_fillsUp {encode : Char → List υ} (h : Holds encode true s [] k)
    (o : DumpOptions) (v : Value) :
    Leaves (v.dumpTo o s) (((v.dumpWith o).toList.flatMap encode).take k)
      (k < ((v.dumpWith o).toList.flatMap encode).length) := by
  rw [dumpTo_eq_serialize]
  exact leaves_of_ends (ends_serialize (isLawful_calls υ) (writes_pieces encode true) h o v)

theorem leaves_dumpTo_of_not_fillsUp {encode : Char → List υ} (h : Holds encode false s [] k)
    (o : DumpOptions) (v : Value) :
    ∃ before after, Run.pieces (v.documentRuns o) = before ++ after ∧
      Leaves (v.dumpTo o s) (units encode before)
        (k < ((v.dumpWith o).toList.flatMap encode).length) ∧
      (units encode before).length ≤ k ∧
      ∀ piece ∈ after.head?, k < (units encode (before ++ [piece])).length := by
  rw [dumpTo_eq_serialize]
  obtain ⟨before, after, heq, hends, hrest⟩ :=
    exists_ends_serialize (isLawful_calls υ) (writes_pieces encode false) h o v
  exact ⟨before, after, heq, leaves_of_ends hends, hrest⟩

/-- Every sink takes the text of a value in its own units.  With a limit, one that fills up is left
with as many of them as there is room for, and one that takes pieces as a whole with the pieces
before the first that does not fit.  Either fails iff there is no room for the whole text, and
nothing is written after the piece that fails.  The calls that serialize a value are those of its
pieces, so the same holds of every writer of characters or of units, by what it does with a call
that it has no room for. -/
theorem dumpTo_leaves (o : DumpOptions) (v : Value) :
    (v.dumpUtf16 o = (v.dumpWith o).toList.flatMap Utf16.encode ∧
      Leaves (v.dumpTo o (.utf8 none)) ((v.dumpWith o).toList.flatMap Utf8.encode) False ∧
      Leaves (v.dumpTo o (.wholeUtf8 none)) ((v.dumpWith o).toList.flatMap Utf8.encode) False ∧
      Leaves (v.dumpTo o (.chars none)) (v.dumpWith o).toList False ∧
      ∀ width fill alternate precision,
        Leaves (v.dumpTo (.ofFormat width fill alternate precision) (.chars none))
          (v.dumpWith ⟨width.getD 0, fill, alternate, precision.getD 16⟩).toList False) ∧
    (∀ k, Leaves (v.dumpTo o (.chars (some k))) ((v.dumpWith o).toList.take k)
        (k < (v.dumpWith o).toList.length) ∧
      Leaves (v.dumpTo o (.utf8 (some k))) (((v.dumpWith o).toList.flatMap Utf8.encode).take k)
        (k < ((v.dumpWith o).toList.flatMap Utf8.encode).length) ∧
      ∃ before after, Run.pieces (v.documentRuns o) = before ++ after ∧
        Leaves (v.dumpTo o (.wholeUtf8 (some k))) (units Utf8.encode before)
          (k < ((v.dumpWith o).toList.flatMap Utf8.encode).length) ∧
        units Utf8.encode before <+: (v.dumpWith o).toList.flatMap Utf8.encode ∧
        (units Utf8.encode before).length ≤ k ∧
        ∀ piece ∈ after.head?, k < (units Utf8.encode (before ++ [piece])).length) ∧
    (∀ {υ : Type} (s s' : Sink υ), v.dumpTo o s = .error .full s' →
      ∃ before piece after s₁, Run.pieces (v.documentRuns o) = before ++ piece :: after ∧
        (forM before write : Writing υ) s = .ok () s₁ ∧ write piece s₁ = .error .full s') ∧
    (∀ {υ : Type}, (v.dumpTo o : Writing υ) = (calls υ).serialize o v) ∧
    (∀ {ε σ : Type} (out : CharSink (EStateM ε σ)), out.IsLawful →
      out.serialize o v = forM (Run.pieces (v.documentRuns o)) out.writeStr) ∧
    ∀ {ε σ υ : Type} (encode : Char → List υ) (holds : σ → List υ → ℕ → Prop) (s : σ) (k : ℕ),
      holds s [] k →
      (∀ writeChar : Char → EStateM ε σ Unit, Writes writeChar encode holds true →
        Ends ((CharSink.ofChars writeChar).serialize o v s) holds
          (((v.dumpWith o).toList.flatMap encode).take k)
          (k < ((v.dumpWith o).toList.flatMap encode).length)) ∧
      (∀ writeAll : List υ → EStateM ε σ Unit, Writes writeAll id holds true →
        Ends ((CharSink.ofUnits encode writeAll).serialize o v s) holds
          (((v.dumpWith o).toList.flatMap encode).take k)
          (k < ((v.dumpWith o).toList.flatMap encode).length)) ∧
      ∀ writeAll : List υ → EStateM ε σ Unit, Writes writeAll id holds false →
        ∃ before after, Run.pieces (v.documentRuns o) = before ++ after ∧
          Ends ((CharSink.ofUnits encode writeAll).serialize o v s) holds (units encode before)
            (k < ((v.dumpWith o).toList.flatMap encode).length) ∧
          (units encode before).length ≤ k ∧
          ∀ piece ∈ after.head?, k < (units encode (before ++ [piece])).length := by
  have hchars : ∀ p : DumpOptions, (v.dumpWith p).toList.flatMap (Sink.chars none).encode =
      (v.dumpWith p).toList := fun p => List.flatMap_singleton' _
  refine ⟨⟨dumpUtf16_eq o v, leaves_dumpTo rfl rfl o v, leaves_dumpTo rfl rfl o v, ?_,
    fun width fill alternate precision => ?_⟩, fun k => ⟨?_,
    leaves_dumpTo_of_fillsUp ⟨rfl, rfl, rfl, rfl⟩ o v, ?_⟩, fun s s' h => ?_, dumpTo_eq_serialize o v,
    fun out hout => CharSink.serialize_eq hout o v, fun encode holds s k hs =>
      ⟨fun writeChar hw => ends_serialize (CharSink.isLawful_ofChars writeChar) hw.ofChars hs o v,
      fun writeAll hw => ends_serialize (CharSink.isLawful_ofUnits encode writeAll)
        (hw.ofUnits encode) hs o v,
      fun writeAll hw => exists_ends_serialize (CharSink.isLawful_ofUnits encode writeAll)
        (hw.ofUnits encode) hs o v⟩⟩
  · have hleaves := leaves_dumpTo (s := .chars none) rfl rfl o v
    rwa [hchars] at hleaves
  · have hleaves := leaves_dumpTo (s := .chars none) rfl rfl
      (.ofFormat width fill alternate precision) v
    rwa [hchars] at hleaves
  · have hleaves := leaves_dumpTo_of_fillsUp (s := .chars (some k)) ⟨rfl, rfl, rfl, rfl⟩ o v
    rwa [show (Sink.chars (some k)).encode = (Sink.chars none).encode from rfl, hchars] at hleaves
  · obtain ⟨before, after, heq, hleaves, hle, hlt⟩ :=
      leaves_dumpTo_of_not_fillsUp (s := .wholeUtf8 (some k)) ⟨rfl, rfl, rfl, rfl⟩ o v
    refine ⟨before, after, heq, hleaves, ⟨units Utf8.encode after, ?_⟩, hle, hlt⟩
    have happend := units_append Utf8.encode before after
    rw [← heq, units_documentRuns] at happend
    exact happend.symm
  · rw [dumpTo_eq_forM] at h
    exact exists_of_forM_error h

/-- A sink that takes units as a whole is such a writer: it is left with none of null where there is
room for half of it. -/
theorem dumpTo_leaves_null :
    Ends ((CharSink.ofUnits Utf8.encode Sink.writeUnits).serialize .compact null
      (.wholeUtf8 (some 2))) (Holds Utf8.encode false) [] (2 < 4) := by
  obtain ⟨before, after, heq, hends, hle, -⟩ :=
    ((dumpTo_leaves .compact null).2.2.2.2.2 Utf8.encode (Holds Utf8.encode false)
      (.wholeUtf8 (some 2)) 2 ⟨rfl, rfl, rfl, rfl⟩).2.2 writeUnits (writes_units Utf8.encode false)
  have hpieces : Run.pieces (null.documentRuns .compact) = [['n', 'u', 'l', 'l']] := rfl
  rw [hpieces] at heq
  rcases before with _ | ⟨piece, before⟩
  · exact hends
  · obtain ⟨rfl, -⟩ := List.cons.inj heq
    have hlength : (['n', 'u', 'l', 'l'].flatMap Utf8.encode).length = 4 := by decide
    rw [units, List.flatten_cons, List.flatMap_append, List.length_append, hlength] at hle
    omega

/-- A sink that takes pieces as a whole takes nothing of the one piece of null, where there is room
for half of it. -/
theorem dumpTo_null_wholeUtf8 :
    (stateAfter (null.dumpTo .compact (.wholeUtf8 (some 2)))).written.toList = [] ∧
      ((null.dumpWith .compact).toList.flatMap Utf8.encode).take 2 = [0x6e, 0x75] := by
  decide

end Value

end JsonDoc
