/-!
# How a value is written

The options of writing: by how many of which character each level is indented, whether characters
beyond ASCII are escaped, and to how many significant digits numbers are rounded.
-/

namespace JsonDoc

/-- The fewest significant digits that numbers are rounded to. -/
def leastPrecision : Nat := 1

/-- The most significant digits that numbers are rounded to, which tell all of them apart. -/
def mostPrecision : Nat := 17

/-- The options of writing a value. -/
structure DumpOptions where
  /-- The count of characters that a level is indented by; with none there is one line only. -/
  indent : Nat
  indentChar : Char
  escapeUnicode : Bool
  precision : Nat
  deriving DecidableEq, Repr

namespace DumpOptions

/-- Everything in one line, to sixteen digits. -/
def compact : DumpOptions := ⟨0, ' ', false, 16⟩

/-- Every item in a line of its own, indented by spaces. -/
def pretty (indent : Nat) : DumpOptions := { compact with indent }

/-- The options with another character for the indentation. -/
def withIndentChar (indentChar : Char) (o : DumpOptions) : DumpOptions := { o with indentChar }

/-- The options with characters beyond ASCII escaped or not. -/
def withEscapeUnicode (escapeUnicode : Bool) (o : DumpOptions) : DumpOptions :=
  { o with escapeUnicode }

/-- The options with a count of significant digits, or the nearest that is possible. -/
def withPrecision (precision : Nat) (o : DumpOptions) : DumpOptions :=
  { o with precision := max leastPrecision (min precision mostPrecision) }

theorem withPrecision_bounds (o : DumpOptions) (count : Nat) :
    0 < (o.withPrecision count).precision ∧ (o.withPrecision count).precision ≤ mostPrecision :=
  ⟨Nat.lt_of_lt_of_le (by decide) (Nat.le_max_left _ _),
    Nat.max_le.mpr ⟨by decide, Nat.min_le_right _ _⟩⟩

/-- The options that a format of text asks for: its width is the indentation, its filling character
the one to indent with, and its precision the count of digits, of which the first and the last may
be left open; its alternate form is the escaped one. -/
def ofFormat (width : Option Nat) (fill : Char) (alternate : Bool) (precision : Option Nat) :
    DumpOptions :=
  ⟨width.getD 0, fill, alternate, precision.getD compact.precision⟩

end DumpOptions

end JsonDoc
