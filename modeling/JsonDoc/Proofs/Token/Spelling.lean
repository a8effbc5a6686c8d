import JsonDoc.Proofs.Token.NumberLiteral
import JsonDoc.Proofs.Token.StringLiteral

/-!
# The spelling of tokens

What a scan of a text comes to: blanks, and then the spelling of a token at the front of the text,
or its end (`ScansTo`), stated in both directions.
-/

namespace JsonDoc

/-- The text consists of characters that may stand between tokens. -/
def IsBlanks (w : List Char) : Prop := ∀ c ∈ w, c = ' ' ∨ c = '\t' ∨ c = '\n' ∨ c = '\r'

theorem isBlanks_nil : IsBlanks [] := nofun

theorem isBlanks_cons {c : Char} {w : List Char} :
    IsBlanks (c :: w) ↔ (c = ' ' ∨ c = '\t' ∨ c = '\n' ∨ c = '\r') ∧ IsBlanks w :=
  List.forall_mem_cons

theorem IsBlanks.append {w x : List Char} (hw : IsBlanks w) (hx : IsBlanks x) :
    IsBlanks (w ++ x) := by
  intro c hc
  rcases List.mem_append.mp hc with hc | hc
  · exact hw c hc
  · exact hx c hc

/-- The spelling of a token other than a number. -/
inductive SpellsToken : List Char → Token → Prop
  | beginArray : SpellsToken ['['] .beginArray
  | endArray : SpellsToken [']'] .endArray
  | beginObject : SpellsToken ['{'] .beginObject
  | endObject : SpellsToken ['}'] .endObject
  | nameSeparator : SpellsToken [':'] .nameSeparator
  | valueSeparator : SpellsToken [','] .valueSeparator
  | true : SpellsToken ['t', 'r', 'u', 'e'] .true
  | false : SpellsToken ['f', 'a', 'l', 's', 'e'] .false
  | null : SpellsToken ['n', 'u', 'l', 'l'] .null
  | string {t s : List Char} (h : SpellsString t s) :
      SpellsToken ('"' :: (t ++ ['"'])) (.string (String.ofList s))

/-- A text is that of a token behind blanks, and what comes after it. -/
inductive ScansTo : List Char → Token → List Char → Prop
  | endOfInput {w : List Char} (hw : IsBlanks w) : ScansTo w .endOfInput []
  | token {w t u : List Char} {tok : Token} (hw : IsBlanks w) (ht : SpellsToken t tok) :
      ScansTo (w ++ (t ++ u)) tok u
  | number {w u : List Char} {l : NumberLiteral} {tok : Token} (hw : IsBlanks w)
      (hu : l.EndsBefore u) (ht : l.token = .ok tok) : ScansTo (w ++ (l.text ++ u)) tok u

namespace TokenState

variable {w t u v : List Char} {c : Char} {tok : Token} {cur : Cursor} {n : ℕ}

theorem isBlank_iff : isBlank c = true ↔ c = ' ' ∨ c = '\t' ∨ c = '\n' ∨ c = '\r' := by
  simp [isBlank, or_assoc]

/-! ### Reading -/

/-- Blanks are skipped before all answers. -/
theorem run_blanks (hw : IsBlanks w) (rest : List Answer) (n : ℕ) :
    blank.run (Answer.chars w ++ rest) n = blank.run rest (n + w.length) := by
  induction w generalizing n with
  | nil => rfl
  | cons c w ih =>
    obtain ⟨hc, hw⟩ := isBlanks_cons.mp hw
    have hstep : blank.step c = .shift blank := by rw [step, if_pos (isBlank_iff.mpr hc)]
    rw [run_append_of_shift hstep, ih hw, List.length_cons, Nat.add_assoc, Nat.add_comm 1]

theorem read_blanks (hw : IsBlanks w) (u : List Char) (n : ℕ) :
    blank.read (w ++ u) n = blank.read u (n + w.length) := by
  rw [read, Answer.chars_append]
  exact run_blanks hw (Answer.chars u) n

theorem read_token (h : SpellsToken t tok) (u : List Char) (n : ℕ) :
    blank.read (t ++ u) n = .ok tok ⟨Answer.chars u, n + t.length, false⟩ := by
  cases h with
  | @string t s h =>
    have hstart : blank.step '"' = .shift (string ⟨[], .outside⟩) := rfl
    rw [List.cons_append, List.append_assoc, List.singleton_append, read_of_shift hstart,
      read_string h, List.reverse_nil, List.nil_append]
    simp only [List.length_cons, List.length_append, List.length_nil]
    congr 2
    omega
  | _ => rfl

/-! ### Finding the spelling -/

theorem exists_word {d : Char} {rest : List Char} {t : Token}
    (h : (word d rest t).read v n = .ok tok cur) : ∃ u, v = d :: (rest ++ u) ∧ tok = t := by
  induction rest generalizing d v n with
  | nil =>
    rcases v with _ | ⟨c, v⟩
    · cases h
    rw [read_cons, step] at h
    by_cases hc : c = d
    · rw [if_pos hc] at h
      cases h
      exact ⟨v, by rw [hc]; rfl, rfl⟩
    · rw [if_neg hc] at h
      cases h
  | cons e rest ih =>
    rcases v with _ | ⟨c, v⟩
    · cases h
    rw [read_cons, step] at h
    by_cases hc : c = d
    · rw [if_pos hc] at h
      obtain ⟨u, rfl, ht⟩ := ih h
      exact ⟨u, by rw [hc]; rfl, ht⟩
    · rw [if_neg hc] at h
      cases h

/-- The first character that is not blank tells what the token is. -/
theorem exists_spelling (hc : isBlank c = false) (h : blank.read (c :: v) n = .ok tok cur) :
    (∃ t u, c :: v = t ++ u ∧ SpellsToken t tok) ∨
      ∃ l u, c :: v = NumberLiteral.text l ++ u ∧ l.EndsBefore u := by
  have hfirst : blank.step c = first c := by rw [step, hc]; rfl
  rw [read_cons, hfirst] at h
  unfold first at h
  split at h
  case h_1 | h_2 | h_3 | h_4 | h_5 | h_6 =>
    cases h
    exact Or.inl ⟨[_], v, rfl, by constructor⟩
  case h_7 =>
    obtain ⟨u, rfl, rfl⟩ := exists_word h
    exact Or.inl ⟨['t', 'r', 'u', 'e'], u, rfl, .true⟩
  case h_8 =>
    obtain ⟨u, rfl, rfl⟩ := exists_word h
    exact Or.inl ⟨['f', 'a', 'l', 's', 'e'], u, rfl, .false⟩
  case h_9 =>
    obtain ⟨u, rfl, rfl⟩ := exists_word h
    exact Or.inl ⟨['n', 'u', 'l', 'l'], u, rfl, .null⟩
  case h_10 =>
    obtain ⟨t, s, u, rfl, hs⟩ := exists_string h
    have hread := read_string hs [] u (n + 1)
    rw [show (string ⟨[], .outside⟩).read (t ++ '"' :: u) (n + 1) = _ from h] at hread
    cases hread
    exact Or.inl ⟨'"' :: (t ++ ['"']), u, by simp, .string hs⟩
  case h_11 =>
    split at h
    case h_1 s hs => exact Or.inr (exists_literal hs h)
    case h_2 => cases h

end TokenState

/-- Every text is blanks and a text that does not begin with one. -/
theorem exists_blanks_append (u : List Char) :
    ∃ w v, u = w ++ v ∧ IsBlanks w ∧ ∀ c ∈ v.head?, TokenState.isBlank c = false := by
  induction u with
  | nil => exact ⟨[], [], rfl, isBlanks_nil, nofun⟩
  | cons c u ih =>
    cases hc : TokenState.isBlank c with
    | true =>
      obtain ⟨w, v, rfl, hw, hv⟩ := ih
      exact ⟨c :: w, v, rfl, isBlanks_cons.mpr ⟨TokenState.isBlank_iff.mp hc, hw⟩, hv⟩
    | false =>
      refine ⟨[], c :: u, rfl, isBlanks_nil, ?_⟩
      rintro _ ⟨⟩
      exact hc

variable {u v : List Char} {tok : Token} {n : ℕ} {peeked : Bool}

theorem scan_blanks_literal {w : List Char} (hw : IsBlanks w) {l : NumberLiteral}
    (hu : l.EndsBefore u) (n : ℕ) (peeked : Bool) :
    Token.scan ⟨Answer.chars (w ++ (l.text ++ u)), n, peeked⟩ =
      TokenState.settled u (n + w.length + l.text.length) l.token :=
  (TokenState.read_blanks hw _ n).trans (TokenState.read_literal l hu _)

/-- A token is scanned from its spelling. -/
theorem ScansTo.exists_scan (h : ScansTo u tok v) (n : ℕ) (peeked : Bool) :
    ∃ m q, Token.scan ⟨Answer.chars u, n, peeked⟩ = .ok tok ⟨Answer.chars v, m, q⟩ := by
  cases h with
  | endOfInput hw =>
    have hread := TokenState.read_blanks hw [] n
    rw [List.append_nil] at hread
    exact ⟨_, _, hread⟩
  | token hw ht =>
    exact ⟨_, _, (TokenState.read_blanks hw _ n).trans (TokenState.read_token ht v _)⟩
  | number hw hu ht =>
    have hscan := scan_blanks_literal hw hu n peeked
    rw [ht] at hscan
    exact ⟨_, _, hscan⟩

/-- What is scanned is spelled at the front of the text. -/
theorem exists_scansTo {cur : Cursor}
    (h : Token.scan ⟨Answer.chars u, n, peeked⟩ = .ok tok cur) :
    ∃ v m q, cur = ⟨Answer.chars v, m, q⟩ ∧ ScansTo u tok v := by
  obtain ⟨w, v, rfl, hw, hv⟩ := exists_blanks_append u
  have hread := (TokenState.read_blanks hw v n).symm.trans h
  cases v with
  | nil =>
    cases hread
    rw [List.append_nil]
    exact ⟨[], _, _, rfl, .endOfInput hw⟩
  | cons c v =>
    rcases TokenState.exists_spelling (hv c rfl) hread with ⟨t, u, hu, ht⟩ | ⟨l, u, hu, hl⟩
    · rw [hu, TokenState.read_token ht] at hread
      cases hread
      exact ⟨u, _, _, rfl, hu ▸ .token hw ht⟩
    · rw [hu, TokenState.read_literal l hl, TokenState.settled_eq_ok_iff] at hread
      exact ⟨u, _, _, hread.2, hu ▸ .number hw hl hread.1⟩

end JsonDoc
