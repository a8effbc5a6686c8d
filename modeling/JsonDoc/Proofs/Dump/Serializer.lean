import JsonDoc.Dump.Serializer
import JsonDoc.Proofs.Dump.Scraped

/-!
# Serializing writes the pieces

The calls that serialize a value are those that write its pieces one after another
(`CharSink.serialize_eq`), in every monad: the first that fails is the last.  This takes no more of a
sink than that a text of one character is written as the character is.  One that is given characters
only is given those of the text (`CharSink.serialize_ofChars`).
-/

namespace JsonDoc

namespace Dump

/-- Digits that are filled in from the last are those of the number, if there is room for them. -/
theorem fillDigits_eq {n room : ℕ} (hn : 0 < n) (hroom : n < 10 ^ room) (digits : List Char) :
    fillDigits room n digits = some (Nat.toDigits 10 n ++ digits) := by
  induction room generalizing n digits with
  | zero => omega
  | succ room ih =>
    obtain ⟨n, rfl⟩ := Nat.exists_eq_succ_of_ne_zero hn.ne'
    rw [fillDigits, Nat.toDigits_eq_if (by decide)]
    rcases Nat.eq_zero_or_pos ((n + 1) / 10) with hzero | hpos
    · have hlt : n + 1 < 10 := by omega
      rw [hzero, if_pos hlt, Nat.mod_eq_of_lt hlt, fillDigits]
      rfl
    · rw [if_neg (by omega), ih hpos (Nat.div_lt_of_lt_mul (by rwa [← pow_succ'])),
        List.append_assoc]
      rfl

/-- Digits that are missing before the point are zeros. -/
theorem map_range_getD (digits : List Char) (places : ℕ) :
    ((List.range places).map fun i => digits[i]?.getD '0') =
      digits.take places ++ List.replicate (places - digits.length) '0' := by
  refine List.ext_getElem ?_ fun i h₁ h₂ => ?_
  · simp
    omega
  · rw [List.getElem_map, List.getElem_range, List.getElem_append]
    split
    case isTrue hlt =>
      rw [List.getElem?_eq_getElem (by simp at hlt; omega), List.getElem_take]
      rfl
    case isFalse hge =>
      rw [List.getElem?_eq_none (by simp at h₁ hge; omega), List.getElem_replicate]
      rfl

end Dump

namespace CharSink

/-- A text of one character is written as the character is. -/
structure IsLawful {m : Type → Type} (out : CharSink m) : Prop where
  writeStr_singleton : ∀ c, out.writeStr [c] = out.writeChar c

theorem isLawful_ofUnits {m : Type → Type} {υ : Type} (encode : Char → List υ)
    (writeAll : List υ → m Unit) : (ofUnits encode writeAll).IsLawful where
  writeStr_singleton c := by simp [ofUnits]

variable {m : Type → Type} [Monad m]

/-- Writes pieces, one after another. -/
def writePieces (out : CharSink m) (pieces : List Piece) : m Unit := forM pieces out.writeStr

variable {out : CharSink m}

/-! ### Pieces -/

/-- Nothing is written on a condition, or pieces are. -/
theorem ite_writePieces (c : Prop) [Decidable c] (pieces : List Piece) :
    (if c then out.writePieces pieces else pure ()) = out.writePieces (if c then pieces else []) := by
  split <;> rfl

variable [LawfulMonad m]

theorem isLawful_ofChars (writeChar : Char → m Unit) : (ofChars writeChar).IsLawful where
  writeStr_singleton c := by simp [ofChars]

theorem writePieces_bind (pieces₁ pieces₂ : List Piece) :
    (do out.writePieces pieces₁; out.writePieces pieces₂) = out.writePieces (pieces₁ ++ pieces₂) :=
  List.forM_append.symm

theorem writeStr_eq (piece : Piece) : out.writeStr piece = out.writePieces [piece] := by
  simp [writePieces]

namespace IsLawful

variable (h : out.IsLawful)
include h

theorem writeChar_eq (c : Char) : out.writeChar c = out.writePieces [[c]] := by
  rw [← h.writeStr_singleton, writeStr_eq]

theorem writeDigits_eq (cs : List Char) :
    out.writeDigits cs = out.writePieces (Piece.singles cs) := by
  rw [writeDigits]
  induction cs with
  | nil => rfl
  | cons c cs ih => rw [List.forM_cons, ih, h.writeChar_eq, writePieces_bind]; rfl

/-! ### Numbers -/

theorem writeUnsigned_eq {n : ℕ} (hn : n < 10 ^ Dump.unsignedDigits) :
    out.writeUnsigned n = out.writePieces (Piece.singles (Nat.toDigits 10 n)) := by
  rw [writeUnsigned]
  split
  case isTrue hzero =>
    rw [hzero, h.writeChar_eq]
    rfl
  case isFalse hzero =>
    rw [Dump.fillDigits_eq (Nat.pos_of_ne_zero hzero) hn, List.append_nil, Option.getD_some,
      h.writeDigits_eq]

theorem writeSign_eq (negative : Bool) :
    out.writeSign negative = out.writePieces (if negative then [['-']] else []) := by
  rw [writeSign, h.writeChar_eq, ite_writePieces]

theorem writeInteger_eq (i : Int64) :
    out.writeInteger i = out.writePieces (Dump.integerPieces i.toInt) := by
  have hbound : i.toInt.natAbs < 10 ^ Dump.unsignedDigits := by
    have hlow := i.le_toInt
    have hhigh := i.toInt_lt
    have hpow : 10 ^ Dump.unsignedDigits = 100000000000000000000 := rfl
    omega
  rw [writeInteger, h.writeSign_eq, h.writeUnsigned_eq hbound, writePieces_bind,
    Dump.integerPieces, Integer.text]
  by_cases hneg : i.toInt < 0
  · rw [if_pos hneg, if_pos (decide_eq_true hneg)]
    rfl
  · rw [if_neg hneg, if_neg (by simpa using hneg)]
    rfl

theorem writeBehindPoint_eq (digits : List Char) (place : ℕ) :
    out.writeBehindPoint digits place = out.writePieces (Piece.singles
      (if digits.drop place = [] then [] else '.' :: digits.drop place)) := by
  rw [writeBehindPoint, h.writeChar_eq, h.writeDigits_eq, writePieces_bind, ite_writePieces]
  by_cases hlt : place < digits.length
  · rw [if_pos hlt, if_neg (by simpa using hlt)]
    rfl
  · rw [if_neg hlt, if_pos (by simpa using hlt)]
    rfl

theorem writeExponent_eq {exponent : ℤ} (hexponent : exponent.natAbs < 10 ^ Dump.unsignedDigits) :
    out.writeExponent exponent = out.writePieces (Piece.singles (Dump.exponentText exponent)) := by
  have hlength : (Nat.toDigits 10 exponent.natAbs).length < 2 ↔ exponent.natAbs < 10 :=
    Nat.lt_succ_iff.trans (decimalLength_le_iff Nat.one_pos)
  rw [writeExponent, h.writeUnsigned_eq hexponent, h.writeChar_eq, h.writeChar_eq,
    Dump.exponentText]
  by_cases hlt : exponent.natAbs < 10
  · rw [if_pos hlt, writePieces_bind, writePieces_bind, if_pos (hlength.mpr hlt)]
    rfl
  · rw [if_neg hlt, writePieces_bind, if_neg (mt hlength.mp hlt)]
    rfl

theorem writePositional_eq (digits : List Char) (places : ℕ) :
    out.writePositional digits places = out.writePieces (Piece.singles (digits.take places ++
      List.replicate (places - digits.length) '0' ++
      if digits.drop places = [] then [] else '.' :: digits.drop places)) := by
  have hbefore : (forM (List.range places) fun i => out.writeChar (digits[i]?.getD '0')) =
      out.writeDigits ((List.range places).map fun i => digits[i]?.getD '0') := by
    rw [writeDigits, List.forM_map]
  rw [writePositional, hbefore, Dump.map_range_getD, h.writeDigits_eq, h.writeBehindPoint_eq,
    writePieces_bind]
  simp only [Piece.singles, List.map_append]

/-- Digits are written in each of the three layouts as their pieces are. -/
theorem writeDecimal_eq (digits : List Char) {exponent : ℤ}
    (hexponent : exponent.natAbs < 10 ^ Dump.unsignedDigits) :
    out.writeDecimal digits exponent = out.writePieces (Dump.digitPieces digits exponent) := by
  rw [writeDecimal, Dump.digitPieces]
  by_cases hscientific : exponent < -6 ∨ 9 ≤ exponent
  · rw [if_pos hscientific, if_pos hscientific.symm, writeScientific, h.writeDigits_eq,
      h.writeBehindPoint_eq, h.writeChar_eq, h.writeExponent_eq hexponent, writePieces_bind,
      writePieces_bind, writePieces_bind]
    simp only [Piece.singles, List.map_append, List.map_cons, List.append_assoc,
      List.singleton_append]
  · rw [if_neg hscientific, if_neg (mt Or.symm hscientific)]
    by_cases hsmall : exponent < 0
    · rw [if_pos hsmall, if_pos hsmall, writeSmall, writeStr_eq, h.writeDigits_eq,
        h.writeDigits_eq, writePieces_bind, writePieces_bind]
      simp only [Piece.singles, List.map_append, List.singleton_append]
    · rw [if_neg hsmall, if_neg hsmall, h.writePositional_eq]

theorem writeFloat_eq {count : ℕ} (hpos : 0 < count) (hcount : count ≤ mostPrecision)
    (x : Binary64) : out.writeFloat count x = out.writePieces (Dump.floatPieces count x) := by
  have hclamp : max leastPrecision (min count mostPrecision) = count := by
    rw [min_eq_left hcount]
    exact max_eq_right hpos
  cases x with
  | nan => exact writeStr_eq _
  | infinite negative => exact writeStr_eq _
  | finite negative m =>
    rw [writeFloat, Dump.floatPieces, hclamp]
    by_cases hm : m.code = 0
    · rw [if_pos hm, if_pos hm, h.writeChar_eq]
    · have hwritten := Magnitude.isWritten_written hm hpos hcount
      have hbound : (m.written count).exponent.natAbs < 10 ^ Dump.unsignedDigits := by
        have hlow := hwritten.le_exponent
        have hhigh : (m.written count).exponent ≤ 308 := hwritten.exponent_le hpos
        have hpow : 10 ^ Dump.unsignedDigits = 100000000000000000000 := rfl
        omega
      rw [if_neg hm, if_neg hm, h.writeSign_eq]
      dsimp only
      rw [(Magnitude.reads_scrapeWritten hm hpos hcount).exponent_eq,
        Magnitude.withoutZeros_scrapeWritten hm hpos hcount, h.writeDecimal_eq _ hbound,
        writePieces_bind]
      cases negative <;> rfl

/-! ### Strings -/

theorem writeUnit_eq (unit : UInt16) :
    out.writeUnit unit = out.writePieces (Dump.unitPieces unit) := by
  rw [writeUnit, writeStr_eq, ← writeDigits, h.writeDigits_eq, writePieces_bind]
  rfl

theorem writeEscape_eq (c : Char) :
    out.writeEscape c = out.writePieces ((Utf16.encode c).flatMap Dump.unitPieces) := by
  rw [writeEscape, Utf16.encode]
  cases Surrogate.split? c with
  | none => simp [h.writeUnit_eq]
  | some pair => simp [h.writeUnit_eq, writePieces_bind]

theorem writeQuoted_eq (escapeUnicode : Bool) (c : Char) :
    out.writeQuoted escapeUnicode c = out.writePieces (Dump.charPieces escapeUnicode c) := by
  unfold writeQuoted
  split
  case h_8 hquote hbackslash htab hreturn hnewline hbackspace hfeed =>
    rw [Dump.charPieces.eq_8 escapeUnicode c hquote hbackslash htab hreturn hnewline hbackspace
      hfeed, h.writeEscape_eq, h.writeChar_eq]
    split <;> rfl
  all_goals exact writeStr_eq _

theorem writeString_eq (escapeUnicode : Bool) (s : String) :
    out.writeString escapeUnicode s = out.writePieces (Dump.stringPieces escapeUnicode s) := by
  have hchars : ∀ cs : List Char, forM cs (out.writeQuoted escapeUnicode) =
      out.writePieces (cs.flatMap (Dump.charPieces escapeUnicode)) := by
    intro cs
    induction cs with
    | nil => rfl
    | cons c cs ih => rw [List.forM_cons, ih, h.writeQuoted_eq, writePieces_bind,
        List.flatMap_cons]
  rw [writeString, hchars, h.writeChar_eq, writePieces_bind, writePieces_bind, Dump.stringPieces]
  rfl

/-! ### Containers -/

theorem writeNewline_eq (o : DumpOptions) :
    out.writeNewline o = out.writePieces (if 0 < o.indent then [['\n']] else []) := by
  rw [writeNewline, h.writeChar_eq, ite_writePieces]

theorem writeIndent_eq (o : DumpOptions) (depth : ℕ) :
    out.writeIndent o depth = out.writePieces
      (if 0 < o.indent then List.replicate (o.indent * depth) [o.indentChar] else []) := by
  rw [writeIndent, ← writeDigits, h.writeDigits_eq, ite_writePieces, Piece.singles,
    List.map_replicate]

/-- A new line and its indentation are the break before a token. -/
theorem lineBreak_eq (o : DumpOptions) (depth : ℕ) :
    (do out.writeNewline o; out.writeIndent o depth) =
      out.writePieces (Run.pieces (o.lineBreak depth)) := by
  rw [h.writeNewline_eq, h.writeIndent_eq, writePieces_bind, DumpOptions.lineBreak]
  by_cases hpretty : 0 < o.indent
  · rw [if_pos hpretty, if_pos hpretty, if_neg hpretty.ne', Run.pieces_once_cons]
    simp [Run.pieces]
  · rw [if_neg hpretty, if_neg hpretty, if_pos (Nat.eq_zero_of_not_pos hpretty)]
    rfl

theorem lineBreak_bind (o : DumpOptions) (depth : ℕ) (rest : m Unit) :
    (do out.writeNewline o; out.writeIndent o depth; rest) =
      (do out.writePieces (Run.pieces (o.lineBreak depth)); rest) := by
  rw [← h.lineBreak_eq, bind_assoc]

theorem writeKey_eq (o : DumpOptions) (key : String) :
    out.writeKey o (some key) = out.writePieces (Run.pieces (o.keyRuns key)) := by
  rw [writeKey, h.writeString_eq, writeStr_eq, writePieces_bind, DumpOptions.keyRuns,
    Run.pieces_append, Run.pieces_map_once]
  by_cases hpretty : 0 < o.indent
  · rw [if_pos hpretty, if_neg hpretty.ne']
    rfl
  · rw [if_neg hpretty, if_pos (Nat.eq_zero_of_not_pos hpretty)]
    rfl

/-- What is written of one item. -/
structure WritesItem (out : CharSink m) (o : DumpOptions) (item : Option String × m Unit)
    (keyPieces valuePieces : List Piece) : Prop where
  key_eq : out.writeKey o item.1 = out.writePieces keyPieces
  value_eq : item.2 = out.writePieces valuePieces

variable {o : DumpOptions} {depth : ℕ} {item : Option String × m Unit}
  {items : List (Option String × m Unit)} {keyPieces valuePieces rest : List Piece}

/-- An item behind another follows a comma, in a line of its own. -/
theorem writeItems_cons (hitem : WritesItem out o item keyPieces valuePieces)
    (hitems : out.writeItems o depth false items = out.writePieces rest) :
    out.writeItems o depth false (item :: items) = out.writePieces
      ([','] :: (Run.pieces (o.lineBreak (depth + 1)) ++ (keyPieces ++ (valuePieces ++ rest)))) := by
  obtain ⟨key, writeValue⟩ := item
  obtain ⟨hkey, rfl⟩ := hitem
  rw [writeItems, writeSeparator, if_neg (by decide), hkey, hitems, h.writeChar_eq, bind_assoc,
    h.lineBreak_bind, writePieces_bind, writePieces_bind, writePieces_bind, writePieces_bind]
  rfl

/-- The items of a container stand between its brackets, the first in a line of its own as well. -/
theorem writeContainer_cons (opening closing : Char)
    (hitem : WritesItem out o item keyPieces valuePieces)
    (hitems : out.writeItems o depth false items = out.writePieces rest) :
    out.writeContainer o opening closing depth (item :: items) = out.writePieces
      ([opening] :: (Run.pieces (o.lineBreak (depth + 1)) ++ (keyPieces ++ (valuePieces ++ (rest ++
        (Run.pieces (o.lineBreak depth) ++ [[closing]])))))) := by
  obtain ⟨key, writeValue⟩ := item
  obtain ⟨hkey, rfl⟩ := hitem
  rw [writeContainer, List.isEmpty_cons, if_neg (by decide), writeItems, writeSeparator,
    if_pos rfl, pure_bind, hkey, hitems, h.lineBreak_bind, h.writeChar_eq, h.writeChar_eq]
  simp only [bind_assoc]
  rw [h.lineBreak_bind, writePieces_bind, writePieces_bind, writePieces_bind, writePieces_bind,
    writePieces_bind, writePieces_bind]
  rfl

theorem writeContainer_nil (o : DumpOptions) (opening closing : Char) (depth : ℕ) :
    out.writeContainer o opening closing depth [] =
      out.writePieces [[opening], [closing]] := by
  rw [writeContainer, List.isEmpty_nil, if_pos rfl, h.writeChar_eq, h.writeChar_eq,
    writePieces_bind]
  rfl

end IsLawful

/-! ### Values -/

theorem pieces_runs (o : DumpOptions) (depth : ℕ) (v : Value) (rest : List Run) :
    Run.pieces (v.runs o depth rest) = Run.pieces (v.runs o depth []) ++ Run.pieces rest := by
  rw [Value.runs_eq_append o depth v rest, Run.pieces_append]

theorem pieces_elementRuns (o : DumpOptions) (depth : ℕ) (xs : List Value) (rest : List Run) :
    Run.pieces (Value.elementRuns o depth xs rest) =
      Run.pieces (Value.elementRuns o depth xs []) ++ Run.pieces rest := by
  rw [Value.elementRuns_eq_append o depth xs rest, Run.pieces_append]

theorem pieces_memberRuns (o : DumpOptions) (depth : ℕ) (members : List (String × Value))
    (rest : List Run) :
    Run.pieces (Value.memberRuns o depth members rest) =
      Run.pieces (Value.memberRuns o depth members []) ++ Run.pieces rest := by
  rw [Value.memberRuns_eq_append o depth members rest, Run.pieces_append]

namespace IsLawful

variable {o : DumpOptions}

mutual

/-- A value is written as its runs are, a piece at a time. -/
theorem dump_eq (h : out.IsLawful) (hpos : 0 < o.precision)
    (hcount : o.precision ≤ mostPrecision) (depth : ℕ) (v : Value) :
    out.dump o depth v = out.writePieces (Run.pieces (v.runs o depth [])) := by
  match v with
  | .null => exact writeStr_eq _
  | .bool true => exact writeStr_eq _
  | .bool false => exact writeStr_eq _
  | .integer i =>
    rw [dump, h.writeInteger_eq, Value.runs, List.append_nil, Run.pieces_map_once]
  | .float x =>
    rw [dump, h.writeFloat_eq hpos hcount, Value.runs, List.append_nil, Run.pieces_map_once]
  | .string s =>
    rw [dump, h.writeString_eq, Value.runs, List.append_nil, Run.pieces_map_once]
  | .array [] => exact h.writeContainer_nil o '[' ']' depth
  | .object ⟨[]⟩ => exact h.writeContainer_nil o '{' '}' depth
  | .array (x :: xs) =>
    have hitem : WritesItem out o (none, out.dump o (depth + 1) x) [] _ :=
      ⟨rfl, dump_eq h hpos hcount (depth + 1) x⟩
    have hitems := dumpElements_eq h hpos hcount depth xs
    rw [dump, dumpElements, h.writeContainer_cons '[' ']' hitem hitems, Value.runs,
      Run.pieces_once_cons, Run.pieces_append, pieces_runs o (depth + 1) x (Value.elementRuns ..),
      pieces_elementRuns o (depth + 1) xs (_ ++ _), Run.pieces_append]
    rfl
  | .object ⟨(key, x) :: members⟩ =>
    have hitem : WritesItem out o (some key, out.dump o (depth + 1) x) _ _ :=
      ⟨h.writeKey_eq o key, dump_eq h hpos hcount (depth + 1) x⟩
    have hitems := dumpMembers_eq h hpos hcount depth members
    rw [dump, dumpMembers, h.writeContainer_cons '{' '}' hitem hitems, Value.runs,
      Run.pieces_once_cons, Run.pieces_append, Run.pieces_append,
      pieces_runs o (depth + 1) x (Value.memberRuns ..),
      pieces_memberRuns o (depth + 1) members (_ ++ _), Run.pieces_append]
    rfl

theorem dumpElements_eq (h : out.IsLawful) (hpos : 0 < o.precision)
    (hcount : o.precision ≤ mostPrecision) (depth : ℕ) (xs : List Value) :
    out.writeItems o depth false (out.dumpElements o depth xs) =
      out.writePieces (Run.pieces (Value.elementRuns o (depth + 1) xs [])) := by
  match xs with
  | [] => rfl
  | x :: xs =>
    have hitem : WritesItem out o (none, out.dump o (depth + 1) x) [] _ :=
      ⟨rfl, dump_eq h hpos hcount (depth + 1) x⟩
    rw [dumpElements, h.writeItems_cons hitem (dumpElements_eq h hpos hcount depth xs),
      Value.elementRuns, Run.pieces_once_cons, Run.pieces_append,
      pieces_runs o (depth + 1) x (Value.elementRuns ..)]
    rfl

theorem dumpMembers_eq (h : out.IsLawful) (hpos : 0 < o.precision)
    (hcount : o.precision ≤ mostPrecision) (depth : ℕ) (members : List (String × Value)) :
    out.writeItems o depth false (out.dumpMembers o depth members) =
      out.writePieces (Run.pieces (Value.memberRuns o (depth + 1) members [])) := by
  match members with
  | [] => rfl
  | (key, x) :: members =>
    have hitem : WritesItem out o (some key, out.dump o (depth + 1) x) _ _ :=
      ⟨h.writeKey_eq o key, dump_eq h hpos hcount (depth + 1) x⟩
    rw [dumpMembers, h.writeItems_cons hitem (dumpMembers_eq h hpos hcount depth members),
      Value.memberRuns, Run.pieces_once_cons, Run.pieces_append, Run.pieces_append,
      pieces_runs o (depth + 1) x (Value.memberRuns ..)]

end

end IsLawful

/-- A value is serialized by writing its pieces one after another, until one fails. -/
theorem serialize_eq (h : out.IsLawful) (o : DumpOptions) (v : Value) :
    out.serialize o v = forM (Run.pieces (v.documentRuns o)) out.writeStr := by
  obtain ⟨hpos, hle⟩ := o.withPrecision_bounds o.precision
  exact h.dump_eq hpos hle 0 v

/-- A sink of characters is given those of the text, one by one. -/
theorem serialize_ofChars (writeChar : Char → m Unit) (o : DumpOptions) (v : Value) :
    (ofChars writeChar).serialize o v = forM (v.dumpWith o).toList writeChar := by
  have hflatten : ∀ pieces : List Piece,
      forM pieces (ofChars writeChar).writeStr = forM pieces.flatten writeChar := by
    intro pieces
    induction pieces with
    | nil => rfl
    | cons piece pieces ih => rw [List.forM_cons, ih, List.flatten_cons, List.forM_append]; rfl
  rw [serialize_eq (isLawful_ofChars writeChar), hflatten, Run.flatten_pieces, Value.dumpWith,
    String.toList_ofList]

end CharSink

end JsonDoc
