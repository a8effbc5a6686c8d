import JsonDoc.Token.Number
import JsonDoc.Token.Quotation

/-!
# Scanning

A cursor is a place in the answers of a source.  `Token.scan` reads the next token from it: it skips
blanks, and then makes the moves of one character after the other until one of them settles the
token.  A move that looks at an answer without using it leaves the answer to the next token, and the
cursor remembers that the source has given it.
-/

namespace JsonDoc

/-- A place in the answers of a source. -/
structure Cursor where
  /-- The answers that are still to be used. -/
  pending : List Answer
  /-- The count of characters that have been used. -/
  offset : Nat
  /-- Whether the source has already given the first of the pending answers. -/
  peeked : Bool
  deriving DecidableEq, Repr

namespace Cursor

/-- The beginning of the answers of a source. -/
def start (answers : List Answer) : Cursor := ⟨answers, 0, false⟩

end Cursor

/-- A run that reads from a cursor. -/
abbrev Scan := EStateM Cause Cursor

/-- How far a token has been read. -/
inductive TokenState where
  /-- Before its first character. -/
  | blank
  /-- Within a word, of which this character and those after it are still to come. -/
  | word (next : Char) (rest : List Char) (t : Token)
  /-- Within a string. -/
  | string (s : StringState)
  /-- Within a number. -/
  | number (s : NumberState)

namespace TokenState

/-- The test for the characters that may stand between tokens. -/
def isBlank (c : Char) : Bool := c = ' ' || c = '\t' || c = '\n' || c = '\r'

/-- The move of the first character of a token. -/
def first (c : Char) : Move TokenState :=
  match c with
  | '[' => .accept .beginArray
  | ']' => .accept .endArray
  | '{' => .accept .beginObject
  | '}' => .accept .endObject
  | ':' => .accept .nameSeparator
  | ',' => .accept .valueSeparator
  | 't' => .shift (word 'r' ['u', 'e'] .true)
  | 'f' => .shift (word 'a' ['l', 's', 'e'] .false)
  | 'n' => .shift (word 'u' ['l', 'l'] .null)
  | '"' => .shift (string .start)
  | c =>
    match NumberState.start? c with
    | some s => .shift (number s)
    | none => .reject (.unexpectedCharacter c)

/-- The move of a character. -/
def step : TokenState → Char → Move TokenState
  | blank, c => if isBlank c then .shift blank else first c
  | word d rest t, c =>
    if c = d then
      match rest with
      | [] => .accept t
      | e :: rest => .shift (word e rest t)
    else .reject .invalidLiteral
  | string s, c => (s.step c).map string
  | number s, c => (s.step c).map number

/-- The move of the end of the input. -/
def atEnd : TokenState → Move Empty
  | blank => .accept .endOfInput
  | word .. => .reject .unexpectedEnd
  | string _ => .reject .unexpectedEnd
  | number s => s.atEnd

/-- The outcome of a move between two places, before the answer and after it. -/
def resolve {σ κ : Type} (here next : κ) (go : σ → EStateM.Result Cause κ Token) :
    Move σ → EStateM.Result Cause κ Token
  | .shift s => go s
  | .accept t => .ok t next
  | .acceptBefore t => .ok t here
  | .reject cause => .error cause next
  | .rejectBefore cause => .error cause here

/-- The rest of a token from a list of answers, at an offset. -/
def run : TokenState → List Answer → Nat → EStateM.Result Cause Cursor Token
  | s, [], n => resolve ⟨[], n, true⟩ ⟨[], n, false⟩ Empty.elim s.atEnd
  | s, .ended :: rest, n => resolve ⟨.ended :: rest, n, true⟩ ⟨rest, n, false⟩ Empty.elim s.atEnd
  | _, .failed e :: rest, n => .error (.source e) ⟨rest, n, false⟩
  | s, .char c :: rest, n =>
    resolve ⟨.char c :: rest, n, true⟩ ⟨rest, n + 1, false⟩ (fun t => run t rest (n + 1)) (s.step c)

/-! ### What is left -/

/-- What is left after a move is no more than at both places and after going on. -/
theorem measure_resolve_le {σ κ : Type} (left : κ → Nat) {here next fin : κ} {t : Token}
    {m : Move σ} {go : σ → EStateM.Result Cause κ Token} {n : Nat}
    (hm : resolve here next go m = .ok t fin) (hhere : left here ≤ n) (hnext : left next ≤ n)
    (hgo : ∀ s, go s = .ok t fin → left fin ≤ n) : left fin ≤ n := by
  cases m with
  | shift s => exact hgo s hm
  | accept => cases hm; exact hnext
  | acceptBefore => cases hm; exact hhere
  | reject => cases hm
  | rejectBefore => cases hm

theorem length_pending_run_le {s : TokenState} {answers : List Answer} {n : Nat} {t : Token}
    {cur : Cursor} (h : run s answers n = .ok t cur) : cur.pending.length ≤ answers.length := by
  induction answers generalizing s n with
  | nil => exact measure_resolve_le (·.pending.length) h (by simp) (by simp) (fun s => s.elim)
  | cons a rest ih =>
    cases a with
    | ended =>
      exact measure_resolve_le (·.pending.length) (n := rest.length + 1) h (by simp) (by simp)
        (fun s => s.elim)
    | failed e => cases h
    | char c =>
      exact measure_resolve_le (·.pending.length) h (by simp) (by simp)
        fun s hs => Nat.le_trans (ih hs) (Nat.le_succ _)

/-- The first character of a token is used by it. -/
theorem first_ne_acceptBefore (c : Char) (t : Token) : first c ≠ .acceptBefore t := by
  unfold first
  split <;> try simp
  split <;> simp

theorem length_pending_run_blank_lt {answers : List Answer} {n : Nat} {t : Token} {cur : Cursor}
    (h : run blank answers n = .ok t cur) (ht : t ≠ .endOfInput) :
    cur.pending.length < answers.length := by
  induction answers generalizing n with
  | nil => cases h; exact absurd rfl ht
  | cons a rest ih =>
    cases a with
    | ended => cases h; exact absurd rfl ht
    | failed e => cases h
    | char c =>
      simp only [run, step] at h
      split at h
      · exact Nat.lt_succ_of_lt (ih h)
      · cases hc : first c <;> rw [hc] at h
        case shift s => exact Nat.lt_succ_of_le (length_pending_run_le h)
        case accept => cases h; exact Nat.lt_succ_self _
        case acceptBefore => exact absurd hc (first_ne_acceptBefore _ _)
        case reject => cases h
        case rejectBefore => cases h

end TokenState

/-- The next token. -/
def Token.scan : Scan Token := fun cur => TokenState.blank.run cur.pending cur.offset

/-- A token other than the end of the input takes at least one answer. -/
theorem Token.length_pending_scan_lt {cur next : Cursor} {t : Token}
    (h : Token.scan cur = .ok t next) (ht : t ≠ .endOfInput) :
    next.pending.length < cur.pending.length :=
  TokenState.length_pending_run_blank_lt h ht

end JsonDoc
