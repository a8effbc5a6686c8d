import JsonDoc.Proofs.Dump.Layout

/-!
# Tokens and the breaks between them

The text of a value is that of its tokens, one after another, with a break of the line between some
of them.  Where a line is broken is told by the two tokens beside it, and how far the next line is
indented by the brackets before it (`DumpOptions.gap`), whatever the tree of the value is
(`Value.toList_dumpWith`).
-/

namespace JsonDoc

/-! ### Brackets -/

/-- The test for a bracket that opens a container. -/
def Token.opens : Token → Bool
  | .beginArray => Bool.true
  | .beginObject => Bool.true
  | _ => Bool.false

/-- The test for a bracket that closes a container. -/
def Token.closes : Token → Bool
  | .endArray => Bool.true
  | .endObject => Bool.true
  | _ => Bool.false

/-- The count of containers that are open at a token behind others, without the one that it closes
itself. -/
def openAt (before : List Token) (tok : Token) : ℕ :=
  before.countP Token.opens - (before ++ [tok]).countP Token.closes

example : openAt [.beginArray, .null, .valueSeparator, .beginArray, .endArray] .valueSeparator = 1 ∧
    openAt [.beginArray, .null, .valueSeparator, .beginArray] .endArray = 1 := by decide

/-- A line is broken between the tokens: behind a bracket that opens a container with items, behind
a comma, or before the bracket that closes a container with items. -/
def BreaksBetween (last tok : Token) : Prop :=
  last.opens ∧ ¬ tok.closes ∨ last = .valueSeparator ∨ ¬ last.opens ∧ tok.closes

instance (last tok : Token) : Decidable (BreaksBetween last tok) :=
  inferInstanceAs (Decidable (_ ∧ _ ∨ _ ∨ _ ∧ _))

theorem not_breaksBetween_brackets {first last : Token} (hfirst : first.opens = true)
    (hlast : last.closes = true) : ¬ BreaksBetween first last := by
  rintro (⟨-, hopens⟩ | rfl | ⟨hopens, -⟩)
  · exact hopens hlast
  · cases hfirst
  · exact hopens hfirst

/-! ### Arrangements -/

namespace DumpOptions

/-- The text of a token. -/
def tokenText (o : DumpOptions) : Token → List Char
  | .beginArray => ['[']
  | .endArray => [']']
  | .beginObject => ['{']
  | .endObject => ['}']
  | .nameSeparator => if o.indent = 0 then [':'] else [':', ' ']
  | .valueSeparator => [',']
  | .true => ['t', 'r', 'u', 'e']
  | .false => ['f', 'a', 'l', 's', 'e']
  | .null => ['n', 'u', 'l', 'l']
  | .string s => (Dump.stringPieces o.escapeUnicode s).flatten
  | .integer i => (Dump.integerPieces i.toInt).flatten
  | .float x => (Dump.floatPieces o.precision x).flatten
  | .endOfInput => []

/-- What stands between tokens and the one behind them: a break of the line with its indentation, or
nothing. -/
def gap (o : DumpOptions) (before : List Token) (tok : Token) : List Char :=
  match before.getLast? with
  | none => []
  | some last =>
    if o.indent ≠ 0 ∧ BreaksBetween last tok then
      '\n' :: List.replicate (o.indent * openAt before tok) o.indentChar
    else []

/-- The text of tokens behind others, with what stands between them. -/
def arrange (o : DumpOptions) (before : List Token) : List Token → List Char
  | [] => []
  | tok :: toks => o.gap before tok ++ (o.tokenText tok ++ o.arrange (before ++ [tok]) toks)

variable {o : DumpOptions} {before toks toks' : List Token} {last tok : Token}

theorem arrange_append (o : DumpOptions) (before toks toks' : List Token) :
    o.arrange before (toks ++ toks') = o.arrange before toks ++ o.arrange (before ++ toks) toks' := by
  induction toks generalizing before with
  | nil => simp [arrange]
  | cons tok toks ih => simp [arrange, ih]

theorem gap_of_getLast? (h : before.getLast? = some last) :
    o.gap before tok = if o.indent ≠ 0 ∧ BreaksBetween last tok then
      '\n' :: List.replicate (o.indent * openAt before tok) o.indentChar else [] := by
  rw [gap, h]

theorem gap_append_singleton (o : DumpOptions) (before : List Token) (last tok : Token) :
    o.gap (before ++ [last]) tok = if o.indent ≠ 0 ∧ BreaksBetween last tok then
      '\n' :: List.replicate (o.indent * openAt (before ++ [last]) tok) o.indentChar else [] :=
  gap_of_getLast? List.getLast?_concat

/-- Between tokens stands nothing, or a break of the line with its indentation. -/
theorem gap_cases (o : DumpOptions) (before : List Token) (tok : Token) :
    o.gap before tok = [] ∨ ∃ last, before.getLast? = some last ∧
      (0 < o.indent ∧ BreaksBetween last tok) ∧
      o.gap before tok = '\n' :: List.replicate (o.indent * openAt before tok) o.indentChar := by
  cases hlast : before.getLast? with
  | none => exact Or.inl (by rw [gap, hlast])
  | some last =>
    rw [gap_of_getLast? hlast]
    split
    case isTrue h => exact Or.inr ⟨last, rfl, ⟨Nat.pos_of_ne_zero h.1, h.2⟩, rfl⟩
    case isFalse => exact Or.inl rfl

theorem gap_of_not_breaksBetween (h : ¬ BreaksBetween last tok) :
    o.gap (before ++ [last]) tok = [] := by
  rw [gap_append_singleton, if_neg fun hbreak => h hbreak.2]

/-- In one line there is nothing between tokens. -/
theorem gap_of_indent_eq_zero (h : o.indent = 0) (before : List Token) (tok : Token) :
    o.gap before tok = [] := by
  unfold gap
  split
  · rfl
  · exact if_neg fun hbreak => hbreak.1 h

end DumpOptions

theorem text_lineBreak (o : DumpOptions) (depth : ℕ) :
    Run.text (o.lineBreak depth) =
      if o.indent = 0 then [] else '\n' :: List.replicate (o.indent * depth) o.indentChar := by
  unfold DumpOptions.lineBreak
  split
  · rfl
  · rw [Run.text_once_cons, Run.text_cons, Run.text_nil, List.flatten_replicate_singleton]
    simp

/-! ### Depths -/

/-- So many containers are open behind the tokens. -/
def HasOpen (toks : List Token) (depth : ℕ) : Prop :=
  toks.countP Token.opens = toks.countP Token.closes + depth

/-- The token can be the last one of a value. -/
def Token.EndsValue (tok : Token) : Prop :=
  tok.opens = Bool.false ∧ tok ≠ .valueSeparator ∧ tok ≠ .nameSeparator

theorem Token.closes_eq_false {tok : Token} (h : tok.opens = Bool.true) :
    tok.closes = Bool.false := by
  cases tok <;> first | rfl | cases h

theorem Token.endsValue_of_closes {tok : Token} (h : tok.closes = Bool.true) : tok.EndsValue := by
  refine ⟨?_, ?_, ?_⟩
  · cases tok <;> first | rfl | cases h
  · rintro rfl
    cases h
  · rintro rfl
    cases h

section

variable {o : DumpOptions} {before : List Token} {last tok : Token} {depth : ℕ}

theorem hasOpen_append_singleton : HasOpen (before ++ [tok]) depth ↔
    before.countP Token.opens + tok.opens.toNat =
      before.countP Token.closes + tok.closes.toNat + depth := by
  rw [HasOpen, List.countP_append, List.countP_append, List.countP_singleton, List.countP_singleton]
  cases tok.opens <;> cases tok.closes <;> rfl

theorem HasOpen.opened (h : HasOpen before depth) (htok : tok.opens = true) :
    HasOpen (before ++ [tok]) (depth + 1) := by
  rw [hasOpen_append_singleton, htok, Token.closes_eq_false htok, h]
  rfl

theorem HasOpen.closed (h : HasOpen before (depth + 1)) (htok : tok.closes = true) :
    HasOpen (before ++ [tok]) depth := by
  rw [hasOpen_append_singleton, htok, (Token.endsValue_of_closes htok).1, h, Bool.toNat_true,
    Bool.toNat_false]
  ring

theorem HasOpen.passed (h : HasOpen before depth) (hopens : tok.opens = false)
    (hcloses : tok.closes = false) : HasOpen (before ++ [tok]) depth := by
  rwa [hasOpen_append_singleton, hopens, hcloses]

theorem HasOpen.openAt_eq (h : HasOpen before depth) (htok : tok.closes = false) :
    openAt before tok = depth := by
  rw [openAt, List.countP_append, List.countP_singleton, htok, h]
  exact Nat.add_sub_cancel_left _ _

theorem HasOpen.openAt_eq_of_closes (h : HasOpen before (depth + 1)) (htok : tok.closes = true) :
    openAt before tok = depth := by
  rw [openAt, List.countP_append, List.countP_singleton, htok, h, if_pos rfl]
  omega

/-- Where a line is broken, it is broken as at that depth. -/
theorem gap_of_breaksBetween (h : BreaksBetween last tok)
    (hopen : openAt (before ++ [last]) tok = depth) :
    o.gap (before ++ [last]) tok = Run.text (o.lineBreak depth) := by
  rw [o.gap_append_singleton, text_lineBreak, hopen]
  by_cases hindent : o.indent = 0 <;> simp [hindent, h]

/-- Behind an opening bracket or a comma, an item begins in a new line. -/
theorem gap_before_item (h : HasOpen (before ++ [last]) depth)
    (hlast : last.opens = true ∨ last = .valueSeparator) (htok : tok.closes = false) :
    o.gap (before ++ [last]) tok = Run.text (o.lineBreak depth) := by
  have hbreak : BreaksBetween last tok := by
    rcases hlast with hlast | hlast
    · exact Or.inl ⟨hlast, by simp [htok]⟩
    · exact Or.inr (Or.inl hlast)
  exact gap_of_breaksBetween hbreak (h.openAt_eq htok)

/-- No line is broken before a comma or a colon. -/
theorem gap_after_value (hlast : last.EndsValue) (htok : tok.closes = false) :
    o.gap (before ++ [last]) tok = [] := by
  apply DumpOptions.gap_of_not_breaksBetween
  simp [BreaksBetween, hlast.1, hlast.2.1, htok]

/-- No line is broken between a key and its value. -/
theorem gap_after_colon (htok : tok.closes = false) :
    o.gap (before ++ [.nameSeparator]) tok = [] := by
  apply DumpOptions.gap_of_not_breaksBetween
  simp [BreaksBetween, Token.opens, htok]

end

/-! ### The tokens of a value -/

/-- Behind a value at a depth, the tokens are written as the runs. -/
def Continues (o : DumpOptions) (depth : ℕ) (toks : List Token) (rest : List Run) : Prop :=
  ∀ before last, HasOpen (before ++ [last]) depth → last.EndsValue →
    o.arrange (before ++ [last]) toks = Run.text rest

section

variable {o : DumpOptions} {before toks : List Token} {depth : ℕ} {rest : List Run}
  {gap : List Char}

/-- Behind the last item of a container, its closing bracket stands in a line of its own. -/
theorem continues_close {tok : Token} (h : Continues o depth toks rest)
    (htok : tok.closes = true) :
    Continues o (depth + 1) (tok :: toks) (o.lineBreak depth ++ .once (o.tokenText tok) :: rest) := by
  intro before last hopen hlast
  have hbreak : BreaksBetween last tok := Or.inr (Or.inr ⟨by simp [hlast.1], htok⟩)
  rw [DumpOptions.arrange, gap_of_breaksBetween hbreak (hopen.openAt_eq_of_closes htok),
    h _ tok (hopen.closed htok) (Token.endsValue_of_closes htok), Run.text_append,
    Run.text_once_cons]

/-- The brackets of a container without items stand next to each other. -/
theorem arrange_empty {first last : Token} (h : Continues o depth toks rest)
    (hopen : HasOpen before depth) (hgap : o.gap before first = gap)
    (hfirst : first.opens = true) (hlast : last.closes = true) :
    o.arrange before (first :: last :: toks) =
      gap ++ (o.tokenText first ++ (o.tokenText last ++ Run.text rest)) := by
  rw [DumpOptions.arrange, DumpOptions.arrange, hgap,
    DumpOptions.gap_of_not_breaksBetween (not_breaksBetween_brackets hfirst hlast), List.nil_append,
    h _ last ((hopen.opened hfirst).closed hlast) (Token.endsValue_of_closes hlast)]

/-- A token that is a value by itself is followed by what continues the value. -/
theorem arrange_leaf {tok : Token} (h : Continues o depth toks rest) (hopen : HasOpen before depth)
    (hgap : o.gap before tok = gap) (htok : tok.EndsValue) (hcloses : tok.closes = false) :
    o.arrange before (tok :: toks) = gap ++ (o.tokenText tok ++ Run.text rest) := by
  rw [DumpOptions.arrange, hgap, h _ tok (hopen.passed htok.1 hcloses) htok]

theorem text_keyRuns (o : DumpOptions) (key : String) :
    Run.text (o.keyRuns key) = o.tokenText (.string key) ++ o.tokenText .nameSeparator := by
  rw [DumpOptions.keyRuns, Run.text_append, Run.text_map_once, Run.text_once_cons, Run.text_nil,
    List.append_nil]
  rfl

/-- The text of a key stands before that of its value. -/
theorem arrange_key (key : String) {item : List Char} (hopen : HasOpen before depth)
    (hgap : o.gap before (.string key) = gap)
    (hitem : ∀ before, HasOpen before depth → (∀ tok, tok.closes = false → o.gap before tok = []) →
      o.arrange before toks = item) :
    o.arrange before (.string key :: .nameSeparator :: toks) =
      gap ++ (Run.text (o.keyRuns key) ++ item) := by
  have hcolon : o.gap (before ++ [.string key]) .nameSeparator = [] :=
    gap_after_value ⟨rfl, nofun, nofun⟩ rfl
  have hopen' : HasOpen (before ++ [.string key] ++ [.nameSeparator]) depth :=
    (hopen.passed rfl rfl).passed rfl rfl
  rw [DumpOptions.arrange, DumpOptions.arrange, hgap, hcolon, List.nil_append, text_keyRuns,
    hitem _ hopen' fun _ => gap_after_colon, List.append_assoc]

namespace Value

mutual

/-- A value is written as its tokens and the breaks between them. -/
theorem arrange_tokens (v : Value) {depth : ℕ} {before toks : List Token} {rest : List Run}
    {gap : List Char} (hrest : Continues o depth toks rest) (hopen : HasOpen before depth)
    (hgap : ∀ tok : Token, tok.closes = Bool.false → o.gap before tok = gap) :
    o.arrange before (v.tokens .float toks) = gap ++ Run.text (v.runs o depth rest) := by
  match v with
  | null | bool true | bool false =>
    rw [tokens, runs, Run.text_once_cons]
    exact arrange_leaf hrest hopen (hgap _ rfl) ⟨rfl, nofun, nofun⟩ rfl
  | integer i =>
    rw [tokens, text_runs_integer]
    exact arrange_leaf hrest hopen (hgap _ rfl) ⟨rfl, nofun, nofun⟩ rfl
  | float x =>
    rw [tokens, text_runs_float]
    exact arrange_leaf hrest hopen (hgap _ rfl) ⟨rfl, nofun, nofun⟩ rfl
  | string s =>
    rw [tokens, runs, Run.text_append, Run.text_map_once]
    exact arrange_leaf hrest hopen (hgap _ rfl) ⟨rfl, nofun, nofun⟩ rfl
  | array [] | object ⟨[]⟩ =>
    rw [tokens, runs, Run.text_once_cons, Run.text_once_cons]
    exact arrange_empty hrest hopen (hgap _ rfl) rfl rfl
  | array (x :: xs) =>
    have hopen' : HasOpen (before ++ [.beginArray]) (depth + 1) := hopen.opened rfl
    have hxs := continues_elementTokens xs (@continues_close _ _ _ _ .endArray hrest rfl)
    have hx := arrange_tokens x hxs hopen' fun tok => gap_before_item hopen' (Or.inl rfl)
    rw [tokens, DumpOptions.arrange, hgap _ rfl, hx, runs, Run.text_once_cons, Run.text_append]
    rfl
  | object ⟨(key, x) :: members⟩ =>
    have hopen' : HasOpen (before ++ [.beginObject]) (depth + 1) := hopen.opened rfl
    have hmembers := continues_memberTokens members (@continues_close _ _ _ _ .endObject hrest rfl)
    have hkey := arrange_key key hopen' (gap_before_item hopen' (Or.inl rfl) rfl)
      fun _ => arrange_tokens x hmembers
    rw [tokens, DumpOptions.arrange, hgap _ rfl, hkey, runs, Run.text_once_cons, Run.text_append,
      Run.text_append]
    rfl

/-- What continues the last of elements continues the one before them, behind their tokens. -/
theorem continues_elementTokens (xs : List Value) {depth : ℕ} {toks : List Token}
    {rest : List Run} (hrest : Continues o depth toks rest) :
    Continues o depth (elementTokens .float xs toks) (elementRuns o depth xs rest) := by
  match xs with
  | [] => exact hrest
  | x :: xs =>
    intro before last hopen hlast
    have hopen' : HasOpen (before ++ [last] ++ [.valueSeparator]) depth := hopen.passed rfl rfl
    have hx := arrange_tokens x (continues_elementTokens xs hrest) hopen' fun tok =>
      gap_before_item hopen' (Or.inr rfl)
    rw [elementTokens, DumpOptions.arrange, gap_after_value hlast rfl, hx, elementRuns,
      Run.text_once_cons, Run.text_append]
    rfl

theorem continues_memberTokens (members : List (String × Value)) {depth : ℕ} {toks : List Token}
    {rest : List Run} (hrest : Continues o depth toks rest) :
    Continues o depth (memberTokens .float members toks) (memberRuns o depth members rest) := by
  match members with
  | [] => exact hrest
  | (key, x) :: members =>
    intro before last hopen hlast
    have hopen' : HasOpen (before ++ [last] ++ [.valueSeparator]) depth := hopen.passed rfl rfl
    have hkey := arrange_key key hopen' (gap_before_item hopen' (Or.inr rfl) rfl)
      fun _ => arrange_tokens x (continues_memberTokens members hrest)
    rw [memberTokens, DumpOptions.arrange, gap_after_value hlast rfl, hkey, memberRuns,
      Run.text_once_cons, Run.text_append, Run.text_append]
    rfl

end

/-- The text of a value is that of its tokens, with the breaks of lines between them. -/
theorem toList_dumpWith (o : DumpOptions) (v : Value) :
    (v.dumpWith o).toList = (o.withPrecision o.precision).arrange [] (v.tokens .float []) := by
  have hend : Continues (o.withPrecision o.precision) 0 [] [] := fun _ _ _ _ => rfl
  have hopen : HasOpen [] 0 := rfl
  rw [arrange_tokens v hend hopen fun _ _ => rfl, dumpWith, String.toList_ofList]
  rfl

end Value

end

end JsonDoc
