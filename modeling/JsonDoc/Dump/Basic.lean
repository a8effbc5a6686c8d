import JsonDoc.Dump.Number
import JsonDoc.Dump.Quotation
import JsonDoc.Value.Basic

/-!
# Writing values

A value is written in runs of pieces, one after another: words, numbers, strings, brackets,
separators, and the breaks of lines that the options ask for.  `Value.runs` puts the runs of a value
before those of what follows it, as `Value.runs_eq_append` states, and `Value.dump` joins all to a
text.
-/

namespace JsonDoc

namespace DumpOptions

/-- The break of a line before a token at a depth, which is empty if all is in one line. -/
def lineBreak (o : DumpOptions) (depth : Nat) : List Run :=
  if o.indent = 0 then [] else [.once ['\n'], ⟨[o.indentChar], o.indent * depth⟩]

/-- A key with what stands between it and its value. -/
def keyRuns (o : DumpOptions) (key : String) : List Run :=
  (Dump.stringPieces o.escapeUnicode key).map .once ++
    [.once (if o.indent = 0 then [':'] else [':', ' '])]

end DumpOptions

namespace Value

open Dump

mutual

/-- The runs of a value at a depth, before those of what follows it. -/
def runs (o : DumpOptions) (depth : Nat) : Value → List Run → List Run
  | null, rest => .once ['n', 'u', 'l', 'l'] :: rest
  | bool true, rest => .once ['t', 'r', 'u', 'e'] :: rest
  | bool false, rest => .once ['f', 'a', 'l', 's', 'e'] :: rest
  | integer i, rest => (integerPieces i.toInt).map .once ++ rest
  | float x, rest => (floatPieces o.precision x).map .once ++ rest
  | string s, rest => (stringPieces o.escapeUnicode s).map .once ++ rest
  | array [], rest => .once ['['] :: .once [']'] :: rest
  | array (x :: xs), rest =>
    .once ['['] :: (o.lineBreak (depth + 1) ++ x.runs o (depth + 1)
      (elementRuns o (depth + 1) xs (o.lineBreak depth ++ .once [']'] :: rest)))
  | object ⟨[]⟩, rest => .once ['{'] :: .once ['}'] :: rest
  | object ⟨(key, x) :: members⟩, rest =>
    .once ['{'] :: (o.lineBreak (depth + 1) ++ (o.keyRuns key ++ x.runs o (depth + 1)
      (memberRuns o (depth + 1) members (o.lineBreak depth ++ .once ['}'] :: rest))))

/-- The runs of the elements after the first, before those of what follows them. -/
def elementRuns (o : DumpOptions) (depth : Nat) : List Value → List Run → List Run
  | [], rest => rest
  | x :: xs, rest =>
    .once [','] :: (o.lineBreak depth ++ x.runs o depth (elementRuns o depth xs rest))

/-- The runs of the members after the first, before those of what follows them. -/
def memberRuns (o : DumpOptions) (depth : Nat) : List (String × Value) → List Run → List Run
  | [], rest => rest
  | (key, x) :: members, rest =>
    .once [','] :: (o.lineBreak depth ++ (o.keyRuns key ++
      x.runs o depth (memberRuns o depth members rest)))

end

mutual

/-- The runs of a value do not depend on what follows it. -/
theorem runs_eq_append (o : DumpOptions) (depth : Nat) (v : Value) (rest : List Run) :
    v.runs o depth rest = v.runs o depth [] ++ rest := by
  match v with
  | null | bool true | bool false | integer _ | float _ | string _ | array [] | object ⟨[]⟩ =>
    simp [runs]
  | array (x :: xs) =>
    rw [runs, runs, runs_eq_append o (depth + 1) x, elementRuns_eq_append o (depth + 1) xs,
      runs_eq_append o (depth + 1) x (elementRuns o (depth + 1) xs (o.lineBreak depth ++ _)),
      elementRuns_eq_append o (depth + 1) xs (o.lineBreak depth ++ [_])]
    simp
  | object ⟨(key, x) :: members⟩ =>
    rw [runs, runs, runs_eq_append o (depth + 1) x, memberRuns_eq_append o (depth + 1) members,
      runs_eq_append o (depth + 1) x (memberRuns o (depth + 1) members (o.lineBreak depth ++ _)),
      memberRuns_eq_append o (depth + 1) members (o.lineBreak depth ++ [_])]
    simp

theorem elementRuns_eq_append (o : DumpOptions) (depth : Nat) (xs : List Value) (rest : List Run) :
    elementRuns o depth xs rest = elementRuns o depth xs [] ++ rest := by
  match xs with
  | [] => simp [elementRuns]
  | x :: xs =>
    rw [elementRuns, elementRuns, runs_eq_append o depth x, elementRuns_eq_append o depth xs,
      runs_eq_append o depth x (elementRuns o depth xs [])]
    simp

theorem memberRuns_eq_append (o : DumpOptions) (depth : Nat) (members : List (String × Value))
    (rest : List Run) :
    memberRuns o depth members rest = memberRuns o depth members [] ++ rest := by
  match members with
  | [] => simp [memberRuns]
  | (key, x) :: members =>
    rw [memberRuns, memberRuns, runs_eq_append o depth x, memberRuns_eq_append o depth members,
      runs_eq_append o depth x (memberRuns o depth members [])]
    simp

end

/-- Numbers are written alike at any depth. -/
theorem text_runs_integer (o : DumpOptions) (i : Int64) (depth : Nat) (r : List Run) :
    Run.text ((integer i).runs o depth r) =
      (integerPieces i.toInt).flatten ++ Run.text r := by
  rw [runs, Run.text_append, Run.text_map_once]

theorem text_runs_float (o : DumpOptions) (x : Binary64) (depth : Nat) (r : List Run) :
    Run.text ((float x).runs o depth r) =
      (floatPieces o.precision x).flatten ++ Run.text r := by
  rw [runs, Run.text_append, Run.text_map_once]

/-- The runs of a value as a document, written to a count of digits that is possible. -/
def documentRuns (o : DumpOptions) (v : Value) : List Run :=
  v.runs (o.withPrecision o.precision) 0 []

/-- The text of a value. -/
def dumpWith (o : DumpOptions) (v : Value) : String := String.ofList (Run.text (v.documentRuns o))

/-- The text of a value in one line. -/
def dump (v : Value) : String := v.dumpWith .compact

/-- The text of a value with every item in a line of its own. -/
def pretty (indent : Nat) (v : Value) : String := v.dumpWith (.pretty indent)

end Value

end JsonDoc
