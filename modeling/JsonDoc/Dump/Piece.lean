/-!
# Pieces

What is written is handed over in pieces, each a short text that a sink takes as a whole or not: a
word, an escape, a separator, and otherwise single characters.  Equal pieces that follow one another
are a run, which keeps the piece and its count, however large that is.
-/

namespace JsonDoc

/-- A text that is written at once. -/
abbrev Piece := List Char

/-- Characters that are written one by one. -/
def Piece.singles (cs : List Char) : List Piece := cs.map fun c => [c]

/-- A piece that is written a number of times. -/
structure Run where
  piece : Piece
  count : Nat
  deriving DecidableEq, Repr

namespace Run

/-- The run of one piece. -/
def once (piece : Piece) : Run := ⟨piece, 1⟩

/-- The text of runs. -/
def text (runs : List Run) : List Char :=
  runs.flatMap fun run => (List.replicate run.count run.piece).flatten

theorem text_nil : text [] = [] := rfl

theorem text_cons (run : Run) (runs : List Run) :
    text (run :: runs) = (List.replicate run.count run.piece).flatten ++ text runs := by
  simp [text]

theorem text_once_cons (piece : Piece) (runs : List Run) :
    text (once piece :: runs) = piece ++ text runs := by
  simp [text_cons, once]

theorem text_append (runs₁ runs₂ : List Run) :
    text (runs₁ ++ runs₂) = text runs₁ ++ text runs₂ := by
  simp [text]

/-- Pieces that are written once each have the text that they are joined to. -/
theorem text_map_once (pieces : List Piece) : text (pieces.map once) = pieces.flatten := by
  induction pieces with
  | nil => rfl
  | cons piece pieces ih => simp [text_once_cons, ih]

/-- The pieces of runs, one by one. -/
def pieces (runs : List Run) : List Piece :=
  runs.flatMap fun run => List.replicate run.count run.piece

theorem flatten_pieces (runs : List Run) : (pieces runs).flatten = text runs := by
  induction runs with
  | nil => rfl
  | cons run runs ih => rw [text_cons, ← ih, pieces, List.flatMap_cons, List.flatten_append, pieces]

theorem pieces_append (runs₁ runs₂ : List Run) :
    pieces (runs₁ ++ runs₂) = pieces runs₁ ++ pieces runs₂ :=
  List.flatMap_append

theorem pieces_once_cons (piece : Piece) (runs : List Run) :
    pieces (once piece :: runs) = piece :: pieces runs := by
  rw [pieces, List.flatMap_cons]
  rfl

/-- Pieces that are written once each are the pieces of their runs. -/
theorem pieces_map_once (pieces : List Piece) : Run.pieces (pieces.map once) = pieces := by
  induction pieces with
  | nil => rfl
  | cons piece pieces ih => rw [List.map_cons, pieces_once_cons, ih]

end Run

end JsonDoc
