import JsonDoc.Dump.Scraped
import JsonDoc.Dump.Sink

/-!
# Serializing

A value is serialized by one call of a sink after another, for a character or for a text.  Each call
may fail, and then nothing is called any more.  What a call does is up to the sink (`CharSink`), and
whether it fails and what it changes to the monad that it runs in: `CharSink.serialize` is the same
for all of them.
-/

namespace JsonDoc

/-- What a sink does with a character and with a text. -/
structure CharSink (m : Type → Type) where
  writeChar : Char → m Unit
  writeStr : List Char → m Unit

namespace Dump

/-- The most digits that an unsigned integer of 64 bits has. -/
def unsignedDigits : Nat := 20

/-- The digits of a number before those that are there already, filled in from the last one, as long
as there is room for them. -/
def fillDigits : Nat → Nat → List Char → Option (List Char)
  | _, 0, digits => some digits
  | 0, _ + 1, _ => none
  | room + 1, n + 1, digits =>
    fillDigits room ((n + 1) / 10) (((n + 1) % 10).digitChar :: digits)

end Dump

namespace CharSink

variable {m : Type → Type} [Monad m]

/-! ### Sinks -/

/-- A sink of characters, which a text is written to one by one. -/
def ofChars (writeChar : Char → m Unit) : CharSink m := ⟨writeChar, fun cs => forM cs writeChar⟩

/-- A sink of units, which those of a text are written to at once. -/
def ofUnits {υ : Type} (encode : Char → List υ) (writeAll : List υ → m Unit) : CharSink m :=
  ⟨fun c => writeAll (encode c), fun cs => writeAll (cs.flatMap encode)⟩

variable (out : CharSink m)

/-! ### Numbers -/

/-- Writes digits. -/
def writeDigits (digits : List Char) : m Unit := forM digits out.writeChar

/-- Writes an unsigned integer of 64 bits. -/
def writeUnsigned (n : Nat) : m Unit :=
  if n = 0 then out.writeChar '0'
  else out.writeDigits ((Dump.fillDigits Dump.unsignedDigits n []).getD [])

/-- Writes the sign of a number that is negative. -/
def writeSign (negative : Bool) : m Unit := if negative then out.writeChar '-' else pure ()

/-- Writes an integer. -/
def writeInteger (i : Int64) : m Unit := do
  out.writeSign (i.toInt < 0)
  out.writeUnsigned i.toInt.natAbs

/-- Writes the digits from a place on behind the point, if there are any. -/
def writeBehindPoint (digits : List Char) (place : Nat) : m Unit :=
  if place < digits.length then do
    out.writeChar '.'
    out.writeDigits (digits.drop place)
  else pure ()

/-- Writes an exponent of at least two digits, behind its sign. -/
def writeExponent (exponent : Int) : m Unit := do
  out.writeChar (if exponent < 0 then '-' else '+')
  if exponent.natAbs < 10 then do
    out.writeChar '0'
    out.writeUnsigned exponent.natAbs
  else out.writeUnsigned exponent.natAbs

/-- Writes digits in scientific notation. -/
def writeScientific (digits : List Char) (exponent : Int) : m Unit := do
  out.writeDigits (digits.take 1)
  out.writeBehindPoint digits 1
  out.writeChar 'e'
  out.writeExponent exponent

/-- Writes digits behind the point, after as many zeros as their exponent asks for. -/
def writeSmall (digits : List Char) (exponent : Int) : m Unit := do
  out.writeStr ['0', '.']
  out.writeDigits (List.replicate (exponent.natAbs - 1) '0')
  out.writeDigits digits

/-- Writes digits with so many places before the point, with zeros for those that are missing. -/
def writePositional (digits : List Char) (places : Nat) : m Unit := do
  forM (List.range places) fun i => out.writeChar (digits[i]?.getD '0')
  out.writeBehindPoint digits places

/-- Writes digits by their exponent. -/
def writeDecimal (digits : List Char) (exponent : Int) : m Unit :=
  if 9 ≤ exponent ∨ exponent < -6 then out.writeScientific digits exponent
  else if exponent < 0 then out.writeSmall digits exponent
  else out.writePositional digits (exponent.toNat + 1)

/-- Writes a floating point number, rounded to a count of digits. -/
def writeFloat (precision : Nat) : Binary64 → m Unit
  | .nan => out.writeStr ['n', 'u', 'l', 'l']
  | .infinite _ => out.writeStr ['n', 'u', 'l', 'l']
  | .finite negative magnitude =>
    if magnitude.code = 0 then out.writeChar '0'
    else do
      out.writeSign negative
      let scraped := magnitude.scrapeWritten (max leastPrecision (min precision mostPrecision))
      out.writeDecimal scraped.withoutZeros scraped.exponent

/-! ### Strings -/

/-- Writes the escape of a code unit. -/
def writeUnit (unit : UInt16) : m Unit := do
  out.writeStr ['\\', 'u']
  forM (Hex.encode unit) out.writeChar

/-- Writes a character as an escape or, if one unit cannot hold it, as two. -/
def writeEscape (c : Char) : m Unit :=
  match Surrogate.split? c with
  | some (lead, trail) => do
    out.writeUnit lead
    out.writeUnit trail
  | none => out.writeUnit (UInt16.ofNat c.toNat)

/-- Writes a character of a string. -/
def writeQuoted (escapeUnicode : Bool) (c : Char) : m Unit :=
  match c with
  | '"' => out.writeStr ['\\', '"']
  | '\\' => out.writeStr ['\\', '\\']
  | '\t' => out.writeStr ['\\', 't']
  | '\r' => out.writeStr ['\\', 'r']
  | '\n' => out.writeStr ['\\', 'n']
  | '\x08' => out.writeStr ['\\', 'b']
  | '\x0c' => out.writeStr ['\\', 'f']
  | c =>
    if c ≤ '\x1f' || escapeUnicode && '\x7f' ≤ c then out.writeEscape c else out.writeChar c

/-- Writes a string between its quotes. -/
def writeString (escapeUnicode : Bool) (s : String) : m Unit := do
  out.writeChar '"'
  forM s.toList (out.writeQuoted escapeUnicode)
  out.writeChar '"'

/-! ### Containers -/

/-- Ends a line, if all is not in one. -/
def writeNewline (o : DumpOptions) : m Unit := if 0 < o.indent then out.writeChar '\n' else pure ()

/-- Writes the indentation of a depth, if all is not in one line. -/
def writeIndent (o : DumpOptions) (depth : Nat) : m Unit :=
  if 0 < o.indent then forM (List.replicate (o.indent * depth) o.indentChar) out.writeChar
  else pure ()

/-- Writes the end of the item before, if there is one. -/
def writeSeparator (o : DumpOptions) (first : Bool) : m Unit :=
  if first then pure () else do
    out.writeChar ','
    out.writeNewline o

/-- Writes the key of an item, if it has one. -/
def writeKey (o : DumpOptions) : Option String → m Unit
  | none => pure ()
  | some key => do
    out.writeString o.escapeUnicode key
    out.writeStr (if 0 < o.indent then [':', ' '] else [':'])

/-- Writes items of a container at a depth: their keys, if they have any, and what writes their
values. -/
def writeItems (o : DumpOptions) (depth : Nat) (first : Bool) :
    List (Option String × m Unit) → m Unit
  | [] => pure ()
  | (key, writeValue) :: items => do
    out.writeSeparator o first
    out.writeIndent o (depth + 1)
    out.writeKey o key
    writeValue
    writeItems o depth false items

/-- Writes a container between its brackets. -/
def writeContainer (o : DumpOptions) (opening closing : Char) (depth : Nat)
    (items : List (Option String × m Unit)) : m Unit := do
  out.writeChar opening
  if items.isEmpty then out.writeChar closing
  else do
    out.writeNewline o
    out.writeItems o depth true items
    out.writeNewline o
    out.writeIndent o depth
    out.writeChar closing

mutual

/-- Writes a value at a depth. -/
def dump (o : DumpOptions) (depth : Nat) : Value → m Unit
  | .null => out.writeStr ['n', 'u', 'l', 'l']
  | .bool true => out.writeStr ['t', 'r', 'u', 'e']
  | .bool false => out.writeStr ['f', 'a', 'l', 's', 'e']
  | .integer i => out.writeInteger i
  | .float x => out.writeFloat o.precision x
  | .string s => out.writeString o.escapeUnicode s
  | .array elements => out.writeContainer o '[' ']' depth (dumpElements o depth elements)
  | .object ⟨members⟩ => out.writeContainer o '{' '}' depth (dumpMembers o depth members)

/-- The elements of an array as items. -/
def dumpElements (o : DumpOptions) (depth : Nat) : List Value → List (Option String × m Unit)
  | [] => []
  | v :: elements => (none, dump o (depth + 1) v) :: dumpElements o depth elements

/-- The members of an object as items. -/
def dumpMembers (o : DumpOptions) (depth : Nat) :
    List (String × Value) → List (Option String × m Unit)
  | [] => []
  | (key, v) :: members => (some key, dump o (depth + 1) v) :: dumpMembers o depth members

end

/-- Writes a value as a document, to a count of digits that is possible. -/
def serialize (o : DumpOptions) (v : Value) : m Unit :=
  out.dump (o.withPrecision o.precision) 0 v

end CharSink

/-- The calls of a sink of pieces: a character is a piece by itself, and so is a text. -/
def Sink.calls (υ : Type) : CharSink (EStateM SinkFull (Sink υ)) := ⟨fun c => write [c], write⟩

end JsonDoc
