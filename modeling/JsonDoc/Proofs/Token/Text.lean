import Mathlib.Data.List.Basic
import JsonDoc.Token.Scan
import JsonDoc.Source.Memory

/-!
# Tokens in a text

A text answers with its characters and then ends.  `TokenState.read` is a token that is read from
the characters of a text, and its equations go through one character at a time.
-/

namespace JsonDoc

/-- The answers of a text. -/
def Answer.chars (cs : List Char) : List Answer := cs.map .char

@[simp] theorem Answer.chars_nil : Answer.chars [] = [] := rfl

@[simp] theorem Answer.chars_cons (c : Char) (cs : List Char) :
    Answer.chars (c :: cs) = .char c :: Answer.chars cs := rfl

theorem Answer.chars_append (cs ds : List Char) :
    Answer.chars (cs ++ ds) = Answer.chars cs ++ Answer.chars ds :=
  List.map_append

theorem Answer.chars_injective : Function.Injective Answer.chars :=
  List.map_injective_iff.mpr fun _ _ h => Answer.char.inj h

theorem answers_chars (cs : List Char) : CharSource.answers cs = Answer.chars cs := by
  induction cs with
  | nil => rw [CharSource.answers]; rfl
  | cons c cs ih =>
    rw [CharSource.answers]
    exact congrArg (.char c :: ·) ih

namespace TokenState

/-- The rest of a token from the characters of a text, at an offset. -/
def read (s : TokenState) (cs : List Char) (n : Nat) : EStateM.Result Cause Cursor Token :=
  s.run (Answer.chars cs) n

/-- The outcome of a token that was complete, or found to be none, before the characters. -/
def settled (cs : List Char) (n : Nat) : Except Cause Token → EStateM.Result Cause Cursor Token
  | .ok t => .ok t ⟨Answer.chars cs, n, true⟩
  | .error cause => .error cause ⟨Answer.chars cs, n, true⟩

variable {s t : TokenState} {c : Char} {cs : List Char} {n : Nat}

theorem read_nil (s : TokenState) (n : Nat) :
    s.read [] n = resolve ⟨[], n, true⟩ ⟨[], n, false⟩ Empty.elim s.atEnd := rfl

theorem read_cons (s : TokenState) (c : Char) (cs : List Char) (n : Nat) :
    s.read (c :: cs) n = resolve ⟨Answer.chars (c :: cs), n, true⟩ ⟨Answer.chars cs, n + 1, false⟩
      (fun t => t.read cs (n + 1)) (s.step c) := rfl

/-- The character that continues a token is used, whatever is answered after it. -/
theorem run_append_of_shift (h : s.step c = .shift t) (cs : List Char) (rest : List Answer)
    (n : Nat) :
    s.run (Answer.chars (c :: cs) ++ rest) n = t.run (Answer.chars cs ++ rest) (n + 1) := by
  rw [Answer.chars_cons, List.cons_append, run, h]
  rfl

theorem read_of_shift (h : s.step c = .shift t) : s.read (c :: cs) n = t.read cs (n + 1) := by
  rw [read_cons, h]
  rfl

theorem read_of_settle {r : Except Cause Token} (h : s.step c = .settle r) :
    s.read (c :: cs) n = settled (c :: cs) n r := by
  rw [read_cons, h]
  cases r <;> rfl

theorem read_of_atEnd_settle {r : Except Cause Token} (h : s.atEnd = .settle r) :
    s.read [] n = settled [] n r := by
  rw [read_nil, h]
  cases r <;> rfl

/-- A token that was complete before the characters is the one that was to be settled. -/
theorem settled_eq_ok_iff {r : Except Cause Token} {tok : Token} {cur : Cursor} :
    settled cs n r = .ok tok cur ↔ r = .ok tok ∧ cur = ⟨Answer.chars cs, n, true⟩ := by
  cases r with
  | ok u =>
    simp only [settled, EStateM.Result.ok.injEq, Except.ok.injEq]
    exact and_congr_right fun _ => eq_comm
  | error cause => simp [settled]

end TokenState

end JsonDoc
