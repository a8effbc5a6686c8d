import JsonDoc.Dump.Basic
import JsonDoc.Text.Utf8

/-!
# Sinks

A sink takes pieces as units of some kind, up to as many as it has room for.  A piece that does not
fit fails: a sink that fills up takes as many of its units as fit, and one that does not takes none.
-/

namespace JsonDoc

/-- A sink that takes units of a kind. -/
structure Sink (υ : Type) where
  /-- The units of a character. -/
  encode : Char → List υ
  /-- Whether it takes the beginning of a piece that does not fit. -/
  fillsUp : Bool
  /-- The count of units that it can still take, if there is a limit. -/
  room : Option Nat
  /-- The units that it has taken. -/
  written : Array υ

/-- The failure of a sink that has not enough room. -/
inductive SinkFull where
  | full
  deriving DecidableEq, Repr

namespace Sink

/-- An empty sink of characters. -/
def chars (room : Option Nat) : Sink Char := ⟨fun c => [c], true, room, #[]⟩

/-- An empty sink of the bytes of UTF-8. -/
def utf8 (room : Option Nat) : Sink UInt8 := ⟨Utf8.encode, true, room, #[]⟩

/-- An empty sink of the bytes of UTF-8 that takes a piece as a whole or not at all. -/
def wholeUtf8 (room : Option Nat) : Sink UInt8 := ⟨Utf8.encode, false, room, #[]⟩

/-- An empty sink of the code units of UTF-16. -/
def utf16 (room : Option Nat) : Sink UInt16 := ⟨Utf16.encode, true, room, #[]⟩

variable {υ : Type}

/-- Writes units. -/
def writeUnits (units : List υ) : EStateM SinkFull (Sink υ) Unit := fun s =>
  match s.room with
  | none => .ok () { s with written := s.written ++ units }
  | some n =>
    if units.length ≤ n then
      .ok () { s with room := some (n - units.length), written := s.written ++ units }
    else if s.fillsUp then
      .error .full { s with room := some 0, written := s.written ++ units.take n }
    else .error .full s

/-- Writes a piece, by the units of its characters. -/
def write (piece : Piece) : EStateM SinkFull (Sink υ) Unit := fun s =>
  writeUnits (piece.flatMap s.encode) s

/-- Writes a piece a number of times, or until it fails. -/
def writeTimes (piece : Piece) : Nat → EStateM SinkFull (Sink υ) Unit
  | 0 => pure ()
  | count + 1 => do
    write piece
    writeTimes piece count

/-- Writes one run of pieces after another until a piece fails. -/
def writeAll : List Run → EStateM SinkFull (Sink υ) Unit
  | [] => pure ()
  | run :: runs => do
    writeTimes run.piece run.count
    writeAll runs

theorem write_of_room_eq_none {s : Sink υ} (h : s.room = none) (piece : Piece) :
    write piece s = .ok () { s with written := s.written ++ piece.flatMap s.encode } := by
  simp [write, writeUnits, h]

/-- A sink without a limit takes a piece as often as it is written. -/
theorem writeTimes_of_room_eq_none {s : Sink υ} (h : s.room = none) (piece : Piece) (count : Nat) :
    writeTimes piece count s = .ok () { s with
      written := s.written ++ (List.replicate count piece).flatten.flatMap s.encode } := by
  induction count generalizing s with
  | zero => simp [writeTimes, pure, EStateM.pure]
  | succ count ih =>
    change EStateM.bind (write piece) (fun _ => writeTimes piece count) s = _
    unfold EStateM.bind
    rw [write_of_room_eq_none h]
    refine (@ih { s with written := s.written ++ piece.flatMap s.encode } h).trans ?_
    congr 2
    apply Array.ext'
    simp [List.replicate_succ, List.flatMap_append]

/-- A sink without a limit takes the whole text. -/
theorem writeAll_of_room_eq_none {s : Sink υ} (h : s.room = none) (runs : List Run) :
    writeAll runs s =
      .ok () { s with written := s.written ++ (Run.text runs).flatMap s.encode } := by
  induction runs generalizing s with
  | nil => simp [writeAll, Run.text_nil, pure, EStateM.pure]
  | cons run runs ih =>
    change EStateM.bind (writeTimes run.piece run.count) (fun _ => writeAll runs) s = _
    unfold EStateM.bind
    rw [writeTimes_of_room_eq_none h]
    let written := s.written ++ (List.replicate run.count run.piece).flatten.flatMap s.encode
    refine (@ih { s with written } h).trans ?_
    congr 2
    apply Array.ext'
    simp [written, Run.text_cons, List.flatMap_append]

end Sink

/-- Writes a value. -/
def Value.dumpTo {υ : Type} (o : DumpOptions) (v : Value) : EStateM SinkFull (Sink υ) Unit :=
  Sink.writeAll (v.documentRuns o)

/-- The code units of UTF-16 of the text of a value. -/
def Value.dumpUtf16 (o : DumpOptions) (v : Value) : List UInt16 :=
  match v.dumpTo o (.utf16 none) with
  | .ok _ s => s.written.toList
  | .error _ s => s.written.toList

/-- The code units of a text are those of its characters. -/
theorem Value.dumpUtf16_eq (o : DumpOptions) (v : Value) :
    v.dumpUtf16 o = (v.dumpWith o).toList.flatMap Utf16.encode := by
  unfold dumpUtf16 dumpTo
  rw [Sink.writeAll_of_room_eq_none rfl]
  simp [dumpWith, Sink.utf16]

end JsonDoc
