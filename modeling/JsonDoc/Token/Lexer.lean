import JsonDoc.Source.Basic
import JsonDoc.Token.Scan

/-!
# Lexers

A lexer reads tokens from a source itself, one request after the other.  It holds one character of
lookahead: a character that it has asked for and not used, or the end of the source, which counts as
an answer like any other and is asked for again once it has been used.
-/

namespace JsonDoc

/-- A source with what has been asked of it ahead. -/
structure Lexer (σ : Type) where
  source : σ
  /-- The next character, or the end, if the source has already given it. -/
  peeked : Option (Option Char)
  /-- The count of characters that have been used. -/
  offset : Nat
  deriving DecidableEq, Repr

namespace Lexer

variable {σ : Type}

/-- The beginning of a source. -/
def new (source : σ) : Lexer σ := ⟨source, none, 0⟩

/-- Whether there is a character ahead, as a count. -/
def ahead (l : Lexer σ) : Nat :=
  match l.peeked with
  | some (some _) => 1
  | _ => 0

/-- The lexer behind what it has been asked ahead. -/
def bump (l : Lexer σ) : Lexer σ := ⟨l.source, none, l.offset + l.ahead⟩

variable [CharSource σ]

/-- The next character, which stays to be used. -/
def peek : EStateM Cause (Lexer σ) (Option Char) := fun l =>
  match l.peeked with
  | some next => .ok next l
  | none =>
    match CharSource.nextChar l.source with
    | .ok next s => .ok next ⟨s, some next, l.offset⟩
    | .error e s => .error (.source e) ⟨s, none, l.offset⟩

/-- How much there is to be read. -/
def size (l : Lexer σ) : Nat := CharSource.size l.source + l.ahead

variable {l l' : Lexer σ} {next : Option Char} {c : Char}

/-- What has been peeked at is ahead. -/
theorem peeked_of_peek (h : peek l = .ok next l') : l'.peeked = some next := by
  unfold peek at h
  split at h
  · rename_i hpeeked
    cases h
    exact hpeeked
  · split at h
    · cases h
      rfl
    · cases h

theorem size_peek_le (h : peek l = .ok next l') : l'.size ≤ l.size := by
  obtain ⟨s, peeked, offset⟩ := l
  cases peeked with
  | some next =>
    cases h
    exact Nat.le_refl _
  | none =>
    simp only [peek] at h
    have hlt := CharSource.size_lt s
    have hended := CharSource.ended s
    cases hempty : CharSource.isEmpty s with
    | true =>
      rw [hended hempty] at h
      cases h
      exact Nat.le_refl _
    | false =>
      have hlt := hlt hempty
      generalize CharSource.nextChar s = result at h hlt
      cases result with
      | error e t => cases h
      | ok next t =>
        cases h
        have hahead : (⟨t, some next, offset⟩ : Lexer σ).ahead ≤ 1 := by
          cases next <;> simp [ahead]
        exact Nat.le_trans (Nat.add_le_add_left hahead _) hlt

theorem size_bump_le (l : Lexer σ) : l.bump.size ≤ l.size :=
  Nat.add_le_add_left (Nat.zero_le l.ahead) _

theorem size_bump_lt (h : peek l = .ok (some c) l') : l'.bump.size < l.size := by
  have hahead : l'.ahead = 1 := by rw [ahead, peeked_of_peek h]
  have hle := size_peek_le h
  rw [size, hahead] at hle
  exact hle

/-- The rest of a token. -/
def scanFrom (s : TokenState) (l : Lexer σ) : EStateM.Result Cause (Lexer σ) Token :=
  match h : peek l with
  | .error cause l' => .error cause l'
  | .ok none l' => TokenState.resolve l' l'.bump Empty.elim s.atEnd
  | .ok (some c) l' =>
    have : l'.bump.size < l.size := size_bump_lt h
    TokenState.resolve l' l'.bump (fun t => scanFrom t l'.bump) (s.step c)
termination_by l.size

/-- The next token. -/
def scan : EStateM Cause (Lexer σ) Token := scanFrom .blank

/-! ### What is left -/

variable {s : TokenState} {t : Token} {cause : Cause}

theorem scanFrom_of_error (h : peek l = .error cause l') : scanFrom s l = .error cause l' := by
  rw [scanFrom]
  split <;> rename_i h' <;> rw [h] at h' <;> cases h'
  rfl

theorem scanFrom_of_end (h : peek l = .ok none l') :
    scanFrom s l = TokenState.resolve l' l'.bump Empty.elim s.atEnd := by
  rw [scanFrom]
  split <;> rename_i h' <;> rw [h] at h' <;> cases h'
  rfl

theorem scanFrom_of_char (h : peek l = .ok (some c) l') :
    scanFrom s l = TokenState.resolve l' l'.bump (fun t => scanFrom t l'.bump) (s.step c) := by
  rw [scanFrom]
  split <;> rename_i h' <;> rw [h] at h' <;> cases h'
  rfl

theorem size_scanFrom_le (h : scanFrom s l = .ok t l') : l'.size ≤ l.size := by
  induction hsize : l.size using Nat.strongRecOn generalizing s l with
  | ind n ih =>
  subst hsize
  cases hpeek : peek l with
  | error cause here =>
    rw [scanFrom_of_error hpeek] at h
    cases h
  | ok next here =>
    have hhere := size_peek_le hpeek
    have hbump := Nat.le_trans here.size_bump_le hhere
    cases next with
    | none =>
      rw [scanFrom_of_end hpeek] at h
      exact TokenState.measure_resolve_le size h hhere hbump fun e => e.elim
    | some c =>
      rw [scanFrom_of_char hpeek] at h
      have hlt := size_bump_lt hpeek
      exact TokenState.measure_resolve_le size h hhere hbump fun s hs =>
        Nat.le_trans (ih _ hlt hs rfl) hbump

/-- A token other than the end of the input takes at least one character. -/
theorem size_scan_lt (h : scan l = .ok t l') (ht : t ≠ .endOfInput) : l'.size < l.size := by
  induction hsize : l.size using Nat.strongRecOn generalizing l with
  | ind n ih =>
  subst hsize
  unfold scan at h ih
  cases hpeek : peek l with
  | error cause here =>
    rw [scanFrom_of_error hpeek] at h
    cases h
  | ok next here =>
    cases next with
    | none =>
      rw [scanFrom_of_end hpeek] at h
      cases h
      exact absurd rfl ht
    | some c =>
      rw [scanFrom_of_char hpeek, TokenState.step] at h
      have hlt := size_bump_lt hpeek
      split at h
      · exact Nat.lt_trans (ih _ hlt h rfl) hlt
      · cases hc : TokenState.first c <;> rw [hc] at h
        case shift s => exact Nat.lt_of_le_of_lt (size_scanFrom_le h) hlt
        case accept =>
          cases h
          exact hlt
        case acceptBefore => exact absurd hc (TokenState.first_ne_acceptBefore _ _)
        case reject => cases h
        case rejectBefore => cases h

end Lexer

end JsonDoc
