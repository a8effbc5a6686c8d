import JsonDoc.Proofs.Document.Nesting
import JsonDoc.Proofs.Document.Tokens
import JsonDoc.Proofs.Dump.RoundTrip

/-!
# Layout does not change the document

A value is written as the spellings of its tokens with blanks around them (`Value.laidOut_runs`),
and only the blanks depend on the layout.  So all texts of a value have the same tokens, and without
the blanks outside of strings they are the text in one line (`Document.dumpWith_layout`).
-/

namespace JsonDoc

/-! ### Blanks outside of strings -/

/-- The character is a blank that stands outside of strings. -/
def IsLayout (q : Quoting) (c : Char) : Prop := q = .outside ∧ TokenState.isBlank c

instance (q : Quoting) (c : Char) : Decidable (IsLayout q c) := inferInstanceAs (Decidable (_ ∧ _))

/-- The characters but for the blanks outside of strings. -/
def withoutBlanksFrom : Quoting → List Char → List Char
  | _, [] => []
  | q, c :: cs =>
    if IsLayout q c then withoutBlanksFrom (q.next c) cs
    else c :: withoutBlanksFrom (q.next c) cs

/-- The blanks outside of strings. -/
def blanksFrom : Quoting → List Char → List Char
  | _, [] => []
  | q, c :: cs => if IsLayout q c then c :: blanksFrom (q.next c) cs else blanksFrom (q.next c) cs

/-- The text without the blanks outside of strings. -/
def withoutBlanks (text : String) : String :=
  String.ofList (withoutBlanksFrom .outside text.toList)

/-- The blanks of a text outside of strings. -/
def blanksOf (text : String) : List Char := blanksFrom .outside text.toList

example : withoutBlanks "[ \"a \\\" b\" ,\n1 ]" = "[\"a \\\" b\",1]" := by decide

variable {q : Quoting} {c : Char} {w t u d : List Char}

theorem length_withoutBlanksFrom_add (q : Quoting) (cs : List Char) :
    (withoutBlanksFrom q cs).length + (blanksFrom q cs).length = cs.length := by
  induction cs generalizing q with
  | nil => rfl
  | cons c cs ih =>
    have hcs := ih (q.next c)
    unfold withoutBlanksFrom blanksFrom
    split <;> simp only [List.length_cons] <;> omega

/-- Where leaving out the blanks changes nothing, there are none. -/
theorem blanksFrom_eq_nil {cs : List Char} (h : withoutBlanksFrom q cs = cs) :
    blanksFrom q cs = [] := by
  have hlen := length_withoutBlanksFrom_add q cs
  rw [h] at hlen
  exact List.eq_nil_of_length_eq_zero (by omega)

theorem withoutBlanksFrom_blanks (hw : IsBlanks w) (u : List Char) :
    withoutBlanksFrom .outside (w ++ u) = withoutBlanksFrom .outside u := by
  induction w with
  | nil => rfl
  | cons c w ih =>
    obtain ⟨hc, hw⟩ := isBlanks_cons.mp hw
    have hnext : Quoting.outside.next c = .outside := by
      rcases hc with rfl | rfl | rfl | rfl <;> rfl
    rw [List.cons_append, withoutBlanksFrom, if_pos ⟨rfl, TokenState.isBlank_iff.mpr hc⟩, hnext,
      ih hw]

/-! ### Spellings -/

theorem withoutBlanksFrom_numeric (ht : ∀ c ∈ t, IsNumeric c) (u : List Char) :
    withoutBlanksFrom .outside (t ++ u) = t ++ withoutBlanksFrom .outside u := by
  induction t with
  | nil => rfl
  | cons c t ih =>
    obtain ⟨hc, ht⟩ := List.forall_mem_cons.mp ht
    have hlayout : ¬ IsLayout .outside c := by
      rintro ⟨-, hblank⟩
      rcases hc with hc | hc
      · exact not_isBlank_of_isDigit hc hblank
      · revert hblank
        simp only [List.mem_cons, List.not_mem_nil, or_false] at hc
        rcases hc with rfl | rfl | rfl | rfl | rfl <;> decide
    rw [List.cons_append, withoutBlanksFrom, if_neg hlayout, Quoting.next, if_neg hc.isFlat.1,
      ih ht, List.cons_append]

/-- What stands in a string is left as it is. -/
theorem EndsString.withoutBlanksFrom_eq (h : EndsString q t) (u : List Char) :
    withoutBlanksFrom q (t ++ u) = t ++ withoutBlanksFrom .outside u := by
  induction h with
  | quote => rfl
  | cons hq _ ih =>
    rw [List.cons_append, withoutBlanksFrom, if_neg fun hlayout => hq hlayout.1, ih,
      List.cons_append]

theorem SpellsToken.withoutBlanksFrom_eq {tok : Token} (h : SpellsToken t tok) (u : List Char) :
    withoutBlanksFrom .outside (t ++ u) = t ++ withoutBlanksFrom .outside u := by
  cases h with
  | string hs =>
    rw [List.cons_append]
    exact congrArg ('"' :: ·) (hs.endsString.withoutBlanksFrom_eq u)
  | _ => rfl

theorem NumberLiteral.token_ne_endOfInput {l : NumberLiteral} {tok : Token}
    (h : l.token = .ok tok) : tok ≠ .endOfInput := by
  rcases denotes_of_token h with ⟨i, rfl, -⟩ | ⟨x, rfl, -⟩ <;> nofun

/-! ### Layouts -/

/-- The text is that of the tokens with blanks around them, and the other text the same without the
blanks. -/
inductive LaidOut : List Char → List Token → List Char → Prop
  | blanks {w : List Char} (hw : IsBlanks w) : LaidOut w [] []
  | token {w t u d : List Char} {tok : Token} {toks : List Token} (hw : IsBlanks w)
      (ht : SpellsToken t tok) (h : LaidOut u toks d) :
      LaidOut (w ++ (t ++ u)) (tok :: toks) (t ++ d)
  | number {w u d : List Char} {l : NumberLiteral} {tok : Token} {toks : List Token}
      (hw : IsBlanks w) (hu : l.EndsBefore u) (ht : l.token = .ok tok) (h : LaidOut u toks d) :
      LaidOut (w ++ (l.text ++ u)) (tok :: toks) (l.text ++ d)

namespace LaidOut

variable {toks : List Token}

theorem append_blanks (hw : IsBlanks w) (h : LaidOut u toks d) : LaidOut (w ++ u) toks d := by
  cases h with
  | blanks hw' => exact .blanks (hw.append hw')
  | token hw' ht h =>
    rw [← List.append_assoc]
    exact .token (hw.append hw') ht h
  | number hw' hu ht h =>
    rw [← List.append_assoc]
    exact .number (hw.append hw') hu ht h

/-- The tokens are those that the text is scanned to. -/
theorem scanAll_eq (h : LaidOut u toks d) (n : ℕ) (p : Bool) :
    Token.scanAll ⟨Answer.chars u, n, p⟩ = .ok toks := by
  induction h generalizing n p with
  | blanks hw =>
    obtain ⟨m, q, hscan⟩ := (ScansTo.endOfInput hw).exists_scan n p
    exact Token.scanAll_of_scan_end hscan
  | token hw ht _ ih =>
    obtain ⟨m, q, hscan⟩ := (ScansTo.token hw ht).exists_scan n p
    rw [Token.scanAll_of_scan hscan (by cases ht <;> nofun), ih]
    rfl
  | number hw hu ht _ ih =>
    obtain ⟨m, q, hscan⟩ := (ScansTo.number hw hu ht).exists_scan n p
    rw [Token.scanAll_of_scan hscan (NumberLiteral.token_ne_endOfInput ht), ih]
    rfl

/-- The other text is what is left without the blanks. -/
theorem withoutBlanksFrom_eq (h : LaidOut u toks d) : withoutBlanksFrom .outside u = d := by
  induction h with
  | blanks hw =>
    have hblanks := withoutBlanksFrom_blanks hw []
    rwa [List.append_nil] at hblanks
  | token hw ht _ ih => rw [withoutBlanksFrom_blanks hw, ht.withoutBlanksFrom_eq, ih]
  | number hw _ _ _ ih =>
    rw [withoutBlanksFrom_blanks hw, withoutBlanksFrom_numeric (NumberLiteral.isNumeric _), ih]

end LaidOut

/-! ### The layout of what is written -/

/-- The options write everything in one line, and otherwise as others do. -/
structure DumpOptions.IsOneLineOf (o p : DumpOptions) : Prop where
  indent_eq : p.indent = 0
  escapeUnicode_eq : o.escapeUnicode = p.escapeUnicode
  precision_eq : o.precision = p.precision

/-- The text of a token is spelled so wherever nothing goes on with a number. -/
def IsLexeme (t : List Char) (tok : Token) : Prop :=
  ∀ u toks d, Delimited u → LaidOut u toks d → LaidOut (t ++ u) (tok :: toks) (t ++ d)

variable {o p : DumpOptions} {tok : Token} {toks : List Token}

theorem SpellsToken.isLexeme (ht : SpellsToken t tok) : IsLexeme t tok :=
  fun _ _ _ _ h => .token isBlanks_nil ht h

theorem isLexeme_literal {l : NumberLiteral} (hl : l.token = .ok tok) : IsLexeme l.text tok :=
  fun _ _ _ hu h => .number isBlanks_nil (hu.endsBefore l) hl h

theorem isLexeme_integer (i : Int64) :
    IsLexeme (Dump.integerPieces i.toInt).flatten (.integer i) := by
  obtain ⟨l, htext, hl⟩ := Dump.exists_integer_literal i
  rw [htext]
  exact isLexeme_literal hl

theorem spellsToken_stringPieces (escapeUnicode : Bool) (s : String) :
    SpellsToken (Dump.stringPieces escapeUnicode s).flatten (.string s) := by
  obtain ⟨k, hpieces, hk⟩ := Dump.exists_spellsString escapeUnicode s
  have hspell := SpellsToken.string hk
  rw [String.ofList_toList] at hspell
  rw [hpieces]
  exact hspell

/-- A floating point number is written as one token. -/
theorem exists_isLexeme_float {count : ℕ} (hpos : 0 < count) (hcount : count ≤ mostPrecision)
    (x : Binary64) : ∃ tok, IsLexeme (Dump.floatPieces count x).flatten tok := by
  cases x with
  | nan => exact ⟨.null, SpellsToken.null.isLexeme⟩
  | infinite negative => exact ⟨.null, SpellsToken.null.isLexeme⟩
  | finite negative m =>
    obtain ⟨l, tok, htext, htoken⟩ := Dump.exists_float_literal hpos hcount negative m
    rw [htext]
    exact ⟨tok, isLexeme_literal htoken⟩

/-! ### Runs -/

section

variable {rest rest' : List Run} (h : LaidOut (Run.text rest) toks (Run.text rest'))

include h

theorem laidOut_once (ht : SpellsToken t tok) :
    LaidOut (Run.text (.once t :: rest)) (tok :: toks) (Run.text (.once t :: rest')) := by
  rw [Run.text_once_cons, Run.text_once_cons]
  exact .token isBlanks_nil ht h

theorem laidOut_pieces {pieces : List Piece} (ht : IsLexeme pieces.flatten tok)
    (hrest : Delimited (Run.text rest)) :
    LaidOut (Run.text (pieces.map .once ++ rest)) (tok :: toks)
      (Run.text (pieces.map .once ++ rest')) := by
  rw [Run.text_append, Run.text_append, Run.text_map_once]
  exact ht _ _ _ hrest h

/-- The break of a line is blank, and there is none in one line. -/
theorem laidOut_lineBreak (ho : o.IsReadable) (hp : o.IsOneLineOf p) (depth : ℕ) :
    LaidOut (Run.text (o.lineBreak depth ++ rest)) toks
      (Run.text (p.lineBreak depth ++ rest')) := by
  have hnone : p.lineBreak depth = [] := if_pos hp.indent_eq
  rw [hnone, List.nil_append, Run.text_append]
  exact h.append_blanks (isBlanks_lineBreak ho depth)

/-- The colon after a key is followed by a blank, but for one line. -/
theorem laidOut_keyRuns (hp : o.IsOneLineOf p) (key : String) :
    LaidOut (Run.text (o.keyRuns key ++ rest)) (.string key :: .nameSeparator :: toks)
      (Run.text (p.keyRuns key ++ rest')) := by
  obtain ⟨blank, hblank, hcolon⟩ : ∃ blank, IsBlanks blank ∧
      (if o.indent = 0 then [':'] else [':', ' ']) = [':'] ++ blank := by
    split
    · exact ⟨[], isBlanks_nil, rfl⟩
    · exact ⟨[' '], isBlanks_cons.mpr ⟨Or.inl rfl, isBlanks_nil⟩, rfl⟩
  have hvalue : LaidOut ([':'] ++ (blank ++ Run.text rest)) (.nameSeparator :: toks)
      ([':'] ++ Run.text rest') := .token isBlanks_nil .nameSeparator (h.append_blanks hblank)
  have hkey := LaidOut.token isBlanks_nil (spellsToken_stringPieces o.escapeUnicode key) hvalue
  simp only [DumpOptions.keyRuns, hcolon, if_pos hp.indent_eq, ← hp.escapeUnicode_eq,
    Run.text_append, Run.text_map_once, Run.text_once_cons, Run.text_nil, List.append_nil,
    List.append_assoc]
  exact hkey

end

theorem delimited_once {rest : List Run} (hc : c ∈ [' ', '\t', '\n', '\r', ',', ']', '}']) :
    Delimited (Run.text (.once [c] :: rest)) := by
  rw [Run.text_once_cons]
  exact delimited_of_mem hc

theorem delimited_lineBreak (ho : o.IsReadable) (depth : ℕ) {rest : List Run}
    (h : Delimited (Run.text rest)) : Delimited (Run.text (o.lineBreak depth ++ rest)) := by
  rw [Run.text_append]
  exact h.append_blanks (isBlanks_lineBreak ho depth)

namespace Value

mutual

/-- The tokens of a value, before those of what follows it, with one for each floating point
number. -/
def tokens (f : Binary64 → Token) : Value → List Token → List Token
  | null, toks => .null :: toks
  | bool true, toks => .true :: toks
  | bool false, toks => .false :: toks
  | integer i, toks => .integer i :: toks
  | float x, toks => f x :: toks
  | string s, toks => .string s :: toks
  | array [], toks => .beginArray :: .endArray :: toks
  | array (x :: xs), toks => .beginArray :: x.tokens f (elementTokens f xs (.endArray :: toks))
  | object ⟨[]⟩, toks => .beginObject :: .endObject :: toks
  | object ⟨(key, x) :: members⟩, toks =>
    .beginObject :: .string key :: .nameSeparator ::
      x.tokens f (memberTokens f members (.endObject :: toks))

def elementTokens (f : Binary64 → Token) : List Value → List Token → List Token
  | [], toks => toks
  | x :: xs, toks => .valueSeparator :: x.tokens f (elementTokens f xs toks)

def memberTokens (f : Binary64 → Token) : List (String × Value) → List Token → List Token
  | [], toks => toks
  | (key, x) :: members, toks =>
    .valueSeparator :: .string key :: .nameSeparator :: x.tokens f (memberTokens f members toks)

end

theorem delimited_elementRuns (o : DumpOptions) (depth : ℕ) (xs : List Value) {rest : List Run}
    (h : Delimited (Run.text rest)) : Delimited (Run.text (elementRuns o depth xs rest)) := by
  cases xs with
  | nil => exact h
  | cons x xs => exact delimited_once (by decide)

theorem delimited_memberRuns (o : DumpOptions) (depth : ℕ) (members : List (String × Value))
    {rest : List Run} (h : Delimited (Run.text rest)) :
    Delimited (Run.text (memberRuns o depth members rest)) := by
  cases members with
  | nil => exact h
  | cons p members => exact delimited_once (by decide)

/-- The text of every floating point number is a token. -/
def LexesFloats (count : ℕ) (f : Binary64 → Token) : Prop :=
  ∀ x, IsLexeme (Dump.floatPieces count x).flatten (f x)

section

variable {f : Binary64 → Token} (ho : o.IsReadable) (hp : o.IsOneLineOf p)

include ho hp

mutual

/-- A value is written as its tokens with blanks around them, and without the blanks in one line. -/
theorem laidOut_runs (hf : LexesFloats o.precision f) (depth : ℕ) (v : Value)
    {rest rest' : List Run} {toks : List Token} (hrest : Delimited (Run.text rest))
    (h : LaidOut (Run.text rest) toks (Run.text rest')) :
    LaidOut (Run.text (v.runs o depth rest)) (v.tokens f toks)
      (Run.text (v.runs p depth rest')) := by
  match v with
  | null => exact laidOut_once h .null
  | bool true => exact laidOut_once h .true
  | bool false => exact laidOut_once h .false
  | integer i => exact laidOut_pieces h (isLexeme_integer i) hrest
  | float x =>
    rw [runs, runs, ← hp.precision_eq]
    exact laidOut_pieces h (hf x) hrest
  | string s =>
    rw [runs, runs, ← hp.escapeUnicode_eq]
    exact laidOut_pieces h (spellsToken_stringPieces o.escapeUnicode s).isLexeme hrest
  | array [] => exact laidOut_once (laidOut_once h .endArray) .beginArray
  | array (x :: xs) =>
    have hclose := laidOut_lineBreak (laidOut_once h .endArray) ho hp depth
    have hend := delimited_lineBreak ho depth (@delimited_once ']' rest (by decide))
    have hxs := laidOut_elementRuns hf (depth + 1) xs hend hclose
    have hx := laidOut_runs hf (depth + 1) x (delimited_elementRuns o (depth + 1) xs hend) hxs
    exact laidOut_once (laidOut_lineBreak hx ho hp (depth + 1)) .beginArray
  | object ⟨[]⟩ => exact laidOut_once (laidOut_once h .endObject) .beginObject
  | object ⟨(key, x) :: members⟩ =>
    have hclose := laidOut_lineBreak (laidOut_once h .endObject) ho hp depth
    have hend := delimited_lineBreak ho depth (@delimited_once '}' rest (by decide))
    have hmembers := laidOut_memberRuns hf (depth + 1) members hend hclose
    have hx := laidOut_runs hf (depth + 1) x (delimited_memberRuns o (depth + 1) members hend)
      hmembers
    have hkey := laidOut_keyRuns hx hp key
    exact laidOut_once (laidOut_lineBreak hkey ho hp (depth + 1)) .beginObject

theorem laidOut_elementRuns (hf : LexesFloats o.precision f) (depth : ℕ) (xs : List Value)
    {rest rest' : List Run} {toks : List Token} (hrest : Delimited (Run.text rest))
    (h : LaidOut (Run.text rest) toks (Run.text rest')) :
    LaidOut (Run.text (elementRuns o depth xs rest)) (elementTokens f xs toks)
      (Run.text (elementRuns p depth xs rest')) := by
  match xs with
  | [] => exact h
  | x :: xs =>
    have hxs := laidOut_elementRuns hf depth xs hrest h
    have hx := laidOut_runs hf depth x (delimited_elementRuns o depth xs hrest) hxs
    exact laidOut_once (laidOut_lineBreak hx ho hp depth) .valueSeparator

theorem laidOut_memberRuns (hf : LexesFloats o.precision f) (depth : ℕ)
    (members : List (String × Value)) {rest rest' : List Run} {toks : List Token}
    (hrest : Delimited (Run.text rest)) (h : LaidOut (Run.text rest) toks (Run.text rest')) :
    LaidOut (Run.text (memberRuns o depth members rest)) (memberTokens f members toks)
      (Run.text (memberRuns p depth members rest')) := by
  match members with
  | [] => exact h
  | (key, x) :: members =>
    have hmembers := laidOut_memberRuns hf depth members hrest h
    have hx := laidOut_runs hf depth x (delimited_memberRuns o depth members hrest) hmembers
    have hkey := laidOut_keyRuns hx hp key
    exact laidOut_once (laidOut_lineBreak hkey ho hp depth) .valueSeparator

end

end

theorem laidOut_documentRuns {f : Binary64 → Token} (v : Value)
    (ho : (o.withPrecision o.precision).IsReadable)
    (hp : (o.withPrecision o.precision).IsOneLineOf (p.withPrecision p.precision))
    (hf : LexesFloats (o.withPrecision o.precision).precision f) :
    LaidOut (Run.text (v.documentRuns o)) (v.tokens f []) (Run.text (v.documentRuns p)) := by
  have hend : LaidOut (Run.text []) [] (Run.text []) := .blanks isBlanks_nil
  exact laidOut_runs ho hp hf 0 v delimited_nil hend

/-- The text of a value has the tokens of the value, whatever the layout. -/
theorem tokens_dumpWith {f : Binary64 → Token} (v : Value)
    (ho : (o.withPrecision o.precision).IsReadable)
    (hf : LexesFloats (o.withPrecision o.precision).precision f) :
    Document.tokens (v.dumpWith o) = .ok (v.tokens f []) := by
  have h := @laidOut_documentRuns o { o with indent := 0 } f v ho ⟨rfl, rfl, rfl⟩ hf
  rw [Document.tokens_eq_scanAll, dumpWith, String.toList_ofList]
  exact h.scanAll_eq 0 false

/-- Without the blanks the text is the one line. -/
theorem withoutBlanks_dumpWith (v : Value) (ho : (o.withPrecision o.precision).IsReadable)
    (hp : (o.withPrecision o.precision).IsOneLineOf (p.withPrecision p.precision)) :
    withoutBlanks (v.dumpWith o) = v.dumpWith p := by
  choose f hf using fun x => exists_isLexeme_float ho.precision_pos ho.precision_le x
  have h := laidOut_documentRuns v ho hp hf
  rw [withoutBlanks, dumpWith, String.toList_ofList]
  exact congrArg String.ofList h.withoutBlanksFrom_eq

end Value

/-! ### Documents -/

/-- Layout and escapes do not change the document: with the same count of digits, the texts of a
value have the tokens of the value, with those that its numbers are written as, and are read as the
same value.  With the same escapes, what is left without the blanks outside of strings is the text in
one line, which has none. -/
theorem Document.dumpWith_layout {order : MemberOrder} {o p : DumpOptions} {v : Value}
    (ho : o.indent = 0 ∨
      o.indentChar = ' ' ∨ o.indentChar = '\t' ∨ o.indentChar = '\n' ∨ o.indentChar = '\r')
    (hp : p.indent = 0 ∨
      p.indentChar = ' ' ∨ p.indentChar = '\t' ∨ p.indentChar = '\n' ∨ p.indentChar = '\r')
    (hprecision :
      (o.withPrecision o.precision).precision = (p.withPrecision p.precision).precision)
    (hv : v.Keyed order) :
    (∃ f, Value.LexesFloats (o.withPrecision o.precision).precision f ∧
        tokens (v.dumpWith o) = .ok (v.tokens f []) ∧
        tokens (v.dumpWith p) = .ok (v.tokens f [])) ∧
      (∃ w, parse order (v.dumpWith o) = .ok w ∧ parse order (v.dumpWith p) = .ok w) ∧
      (o.escapeUnicode = p.escapeUnicode → p.indent = 0 →
        withoutBlanks (v.dumpWith o) = v.dumpWith p ∧ blanksOf (v.dumpWith p) = []) := by
  have ho' := DumpOptions.isReadable_withPrecision ho
  have hp' := DumpOptions.isReadable_withPrecision hp
  choose f hf using fun x => exists_isLexeme_float ho'.precision_pos ho'.precision_le x
  have htokens := Value.tokens_dumpWith v ho' hf
  have htokens' := Value.tokens_dumpWith v hp' (hprecision ▸ hf)
  obtain ⟨w, -, hspell⟩ := Value.exists_spells_runs ho' 0 v hv
  have hparse := parse_dumpWith_of_spells hspell
  refine ⟨⟨f, hf, htokens, htokens'⟩,
    ⟨w, hparse, parse_of_tokens htokens htokens' hparse⟩, ?_⟩
  intro hescape hindent
  have hself := Value.withoutBlanks_dumpWith v hp' ⟨hindent, rfl, rfl⟩
  refine ⟨Value.withoutBlanks_dumpWith v ho' ⟨hindent, hescape, hprecision⟩, ?_⟩
  apply blanksFrom_eq_nil
  have hlist := congrArg String.toList hself
  rwa [withoutBlanks, String.toList_ofList] at hlist

/-- Lines that tabs indent, and one line, to all digits: with a blank and an escape in a key, and a
quote in a string. -/
theorem Document.dumpWith_layout_tabs :
    let o : DumpOptions := ⟨1, '\t', true, 20⟩
    let p : DumpOptions := ⟨0, 'x', true, 17⟩
    let x : Binary64 := .finite false ⟨0x3fb999999999999a, by decide⟩
    let v := Value.array [.float x, .object ⟨[("é ", .string " \"[ "), ("", .array [])]⟩]
    (o.indentChar = '\t' ∧ p.indent = 0 ∧ (o.withPrecision o.precision).precision =
      (p.withPrecision p.precision).precision ∧ v.Keyed .insertion) ∧
      (v.dumpWith o = "[\n\t0.10000000000000001,\n\t\x7b\n\t\t\"\\u00e9 \": \" \\\"[ \",\n" ++
          "\t\t\"\": []\n\t\x7d\n]" ∧
        v.dumpWith p =
          "[0.10000000000000001,\x7b\"\\u00e9 \":\" \\\"[ \",\"\":[]\x7d]") ∧
      (∃ y, tokens (v.dumpWith o) = .ok (v.tokens y []) ∧
        tokens (v.dumpWith p) = .ok (v.tokens y [])) ∧
      (∃ w, parse .insertion (v.dumpWith o) = .ok w ∧ parse .insertion (v.dumpWith p) = .ok w) ∧
      withoutBlanks (v.dumpWith o) = v.dumpWith p ∧ blanksOf (v.dumpWith p) = [] := by
  intro o p x v
  have hkeyed : v.Keyed .insertion :=
    ⟨trivial, ⟨by simp [Members.WellKeyed, Members.keys], trivial, trivial, trivial⟩, trivial⟩
  obtain ⟨⟨y, -, htokens⟩, hparse, hblanks⟩ := @dumpWith_layout .insertion o p v
    (Or.inr (Or.inr (Or.inl rfl))) (Or.inl rfl) rfl hkeyed
  exact ⟨⟨rfl, rfl, rfl, hkeyed⟩, ⟨by decide +kernel, by decide +kernel⟩, ⟨y, htokens⟩, hparse,
    hblanks rfl rfl⟩

end JsonDoc
