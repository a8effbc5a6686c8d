import JsonDoc.Text.Hex

/-!
# Sources of characters

A source answers each request with a character, with its end, or with a failure, and either of the
latter may be followed by more characters.  `CharSource.answers` lists all that a source will ever
answer; a source that has run out goes on to answer that it has ended.
-/

namespace JsonDoc

/-- The reason why a source failed to give a character. -/
inductive SourceError where
  | invalidUtf8
  | unpairedSurrogate (unit : UInt16)
  /-- The failure of a reader that describes itself. -/
  | failure (description : String)
  /-- The failure of a reader that has a reason only. -/
  | readerFailed (reason : String)
  deriving DecidableEq, Repr

/-- The text that describes a failure. -/
def SourceError.message : SourceError → String
  | invalidUtf8 => "invalid UTF-8"
  | unpairedSurrogate unit =>
    "unpaired surrogate found: " ++ String.ofList (Hex.digits unit.toNat)
  | failure description => description
  | readerFailed reason => "reader failed: " ++ reason

/-- One answer of a source. -/
inductive Answer where
  | char (c : Char)
  | ended
  | failed (e : SourceError)
  deriving DecidableEq, Repr

/-- The answer that a run comes to. -/
def Answer.ofResult {σ : Type} : EStateM.Result SourceError σ (Option Char) → Answer
  | .ok (some c) _ => char c
  | .ok none _ => ended
  | .error e _ => failed e

/-- The state after a run, whether it failed or not. -/
def stateAfter {ε σ α : Type} : EStateM.Result ε σ α → σ
  | .ok _ s => s
  | .error _ s => s

/-- The states from which characters are read.  What is left is finite: each request takes some of
it, and once nothing is left the source has ended and stays as it is. -/
class CharSource (σ : Type) where
  nextChar : EStateM SourceError σ (Option Char)
  isEmpty : σ → Bool
  size : σ → Nat
  size_lt (s : σ) : isEmpty s = false → size (stateAfter (nextChar s)) < size s
  ended (s : σ) : isEmpty s = true → nextChar s = .ok none s

namespace CharSource

variable {σ : Type} [CharSource σ]

/-- The next answer. -/
def next (s : σ) : Answer := Answer.ofResult (nextChar s)

/-- What is left after the next answer. -/
def rest (s : σ) : σ := stateAfter (nextChar s)

/-- What is left after a count of answers. -/
def advance : Nat → σ → σ
  | 0, s => s
  | n + 1, s => advance n (rest s)

/-- The answers to a count of requests. -/
def take : Nat → σ → List Answer
  | 0, _ => []
  | n + 1, s => next s :: take n (rest s)

/-- All answers until nothing is left. -/
def answers (s : σ) : List Answer :=
  match h : isEmpty s with
  | true => []
  | false =>
    have : size (rest s) < size s := size_lt s h
    next s :: answers (rest s)
termination_by size s

theorem advance_succ (n : Nat) (s : σ) : advance (n + 1) s = rest (advance n s) := by
  induction n generalizing s with
  | zero => rfl
  | succ n ih => exact ih (rest s)

theorem answers_of_empty {s : σ} (h : isEmpty s = true) : answers s = [] := by
  rw [answers]
  split
  · rfl
  · rename_i h'
    cases h.symm.trans h'

theorem answers_of_next {s : σ} (h : isEmpty s = false) :
    answers s = next s :: answers (rest s) := by
  rw [answers]
  split
  · rename_i h'
    cases h.symm.trans h'
  · rfl

theorem next_of_empty {s : σ} (h : isEmpty s = true) : next s = .ended := by
  rw [next, ended s h]
  rfl

theorem next_of_answers_nil {s : σ} (h : answers s = []) : next s = .ended := by
  cases hempty : isEmpty s with
  | true => exact next_of_empty hempty
  | false =>
    rw [answers_of_next hempty] at h
    cases h

theorem next_of_answers_cons {s : σ} {a : Answer} {rest : List Answer}
    (h : answers s = a :: rest) : next s = a := by
  cases hempty : isEmpty s with
  | true =>
    rw [answers_of_empty hempty] at h
    cases h
  | false =>
    rw [answers_of_next hempty] at h
    exact (List.cons.inj h).1

end CharSource

end JsonDoc
