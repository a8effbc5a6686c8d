import JsonDoc.Proofs.Members
import JsonDoc.Proofs.Token.Numeral
import JsonDoc.Proofs.Token.Spelling
import JsonDoc.Value.Basic

/-!
# The grammar of documents

The grammar of RFC 8259 as relations between characters and what they denote.  Which value a number
literal denotes is left open: it is a parameter of the relations.  The members of an object are
those that come of inserting the members that are spelled, one after another.
-/

namespace JsonDoc

/-- A number: an integer, or a floating point number that is finite. -/
def Value.IsNumber : Value → Prop
  | .integer _ => True
  | .float x => x.isFinite
  | _ => False

/-- The value that a literal is read as. -/
def NumberLiteral.Denotes (l : NumberLiteral) (v : Value) : Prop :=
  (∃ i, l.token = .ok (.integer i) ∧ v = .integer i) ∨
    ∃ x, l.token = .ok (.float x) ∧ v = .float x

theorem NumberLiteral.Denotes.isNumber {l : NumberLiteral} {v : Value} (h : l.Denotes v) :
    v.IsNumber := by
  rcases h with ⟨i, -, rfl⟩ | ⟨x, hx, rfl⟩
  · trivial
  · rcases l.numeral.token_cases with ⟨i, h⟩ | ⟨y, hy, h⟩ | h
    · cases hx.symm.trans h
    · cases hx.symm.trans h
      exact hy
    · cases hx.symm.trans h

theorem NumberLiteral.denotes_of_token {l : NumberLiteral} {tok : Token} (h : l.token = .ok tok) :
    (∃ i, tok = .integer i ∧ l.Denotes (.integer i)) ∨
      ∃ x, tok = .float x ∧ l.Denotes (.float x) := by
  rcases l.numeral.token_cases with ⟨i, hi⟩ | ⟨x, -, hx⟩ | he
  · cases h.symm.trans hi
    exact Or.inl ⟨i, rfl, Or.inl ⟨i, h, rfl⟩⟩
  · cases h.symm.trans hx
    exact Or.inr ⟨x, rfl, Or.inr ⟨x, h, rfl⟩⟩
  · cases h.symm.trans he

/-- A token that is no number is scanned from its spelling. -/
theorem ScansTo.exists_spelling {u u' : List Char} {tok : Token} (h : ScansTo u tok u')
    (hend : tok ≠ .endOfInput) (hinteger : ∀ i, tok ≠ .integer i) (hfloat : ∀ x, tok ≠ .float x) :
    ∃ w t, IsBlanks w ∧ SpellsToken t tok ∧ u = w ++ (t ++ u') := by
  cases h with
  | endOfInput hw => exact absurd rfl hend
  | token hw ht => exact ⟨_, _, hw, ht, rfl⟩
  | number hw hu ht =>
    rcases NumberLiteral.denotes_of_token ht with ⟨i, rfl, -⟩ | ⟨x, rfl, -⟩
    · exact absurd rfl (hinteger i)
    · exact absurd rfl (hfloat x)

/-- A literal that is read as no value is out of range. -/
theorem NumberLiteral.exists_denotes (l : NumberLiteral) :
    (∃ v, l.Denotes v) ∨ l.token = .error .numberOutOfRange := by
  rcases l.numeral.token_cases with ⟨i, h⟩ | ⟨x, -, h⟩ | h
  · exact Or.inl ⟨.integer i, Or.inl ⟨i, h, rfl⟩⟩
  · exact Or.inl ⟨.float x, Or.inr ⟨x, h, rfl⟩⟩
  · exact Or.inr h

section

variable (number : NumberLiteral → Value → Prop) (order : MemberOrder)

mutual

/-- The characters spell a value. -/
inductive SpellsValue : List Char → Value → Prop
  | null : SpellsValue ['n', 'u', 'l', 'l'] .null
  | true : SpellsValue ['t', 'r', 'u', 'e'] (.bool true)
  | false : SpellsValue ['f', 'a', 'l', 's', 'e'] (.bool false)
  | number {l : NumberLiteral} {v : Value} (h : number l v) : SpellsValue l.text v
  | string {t s : List Char} (h : SpellsString t s) :
      SpellsValue ('"' :: (t ++ ['"'])) (.string (String.ofList s))
  | emptyArray {w : List Char} (hw : IsBlanks w) : SpellsValue ('[' :: (w ++ [']'])) (.array [])
  | array {t : List Char} {vs : List Value} (h : SpellsElements t vs) :
      SpellsValue ('[' :: (t ++ [']'])) (.array vs)
  | emptyObject {w : List Char} (hw : IsBlanks w) :
      SpellsValue ('{' :: (w ++ ['}'])) (.object .empty)
  | object {t : List Char} {ps : List (String × Value)} {m : Members Value}
      (h : SpellsMembers t ps) (hm : m.Collects order ps) :
      SpellsValue ('{' :: (t ++ ['}'])) (.object m)

/-- The characters spell a value between blanks. -/
inductive SpellsElement : List Char → Value → Prop
  | mk {w t x : List Char} {v : Value} (hw : IsBlanks w) (h : SpellsValue t v)
      (hx : IsBlanks x) : SpellsElement (w ++ (t ++ x)) v

/-- The characters spell values with commas between them. -/
inductive SpellsElements : List Char → List Value → Prop
  | one {t : List Char} {v : Value} (h : SpellsElement t v) : SpellsElements t [v]
  | more {t u : List Char} {v : Value} {vs : List Value} (h : SpellsElement t v)
      (hs : SpellsElements u vs) : SpellsElements (t ++ ',' :: u) (v :: vs)

/-- The characters spell a key and a value with a colon between them. -/
inductive SpellsMember : List Char → String × Value → Prop
  | mk {w k s x t : List Char} {v : Value} (hw : IsBlanks w) (hk : SpellsString k s)
      (hx : IsBlanks x) (h : SpellsElement t v) :
      SpellsMember (w ++ ('"' :: (k ++ ['"']) ++ (x ++ ':' :: t))) (String.ofList s, v)

/-- The characters spell members with commas between them. -/
inductive SpellsMembers : List Char → List (String × Value) → Prop
  | one {t : List Char} {p : String × Value} (h : SpellsMember t p) : SpellsMembers t [p]
  | more {t u : List Char} {p : String × Value} {ps : List (String × Value)}
      (h : SpellsMember t p) (hs : SpellsMembers u ps) : SpellsMembers (t ++ ',' :: u) (p :: ps)

end

end

/-! ### Literals with other values -/

section

variable {number number' : NumberLiteral → Value → Prop} {order : MemberOrder}

/-- A text that spells a value spells one as well if the literals denote other values. -/
theorem SpellsElement.exists_of (hn : ∀ l v, number l v → ∃ v', number' l v') {t : List Char}
    {v : Value} (h : SpellsElement number order t v) :
    ∃ v', SpellsElement number' order t v' := by
  refine @SpellsElement.rec number order
    (fun t _ _ => ∃ v', SpellsValue number' order t v')
    (fun t _ _ => ∃ v', SpellsElement number' order t v')
    (fun t _ _ => ∃ vs', SpellsElements number' order t vs')
    (fun t _ _ => ∃ p', SpellsMember number' order t p')
    (fun t _ _ => ∃ ps', SpellsMembers number' order t ps')
    ⟨_, .null⟩ ⟨_, .true⟩ ⟨_, .false⟩ ?_ (fun h => ⟨_, .string h⟩) (fun hw => ⟨_, .emptyArray hw⟩)
    ?_ (fun hw => ⟨_, .emptyObject hw⟩) ?_ ?_ ?_ ?_ ?_ ?_ ?_ t v h
  · intro l v h
    obtain ⟨v', h'⟩ := hn l v h
    exact ⟨v', .number h'⟩
  · rintro t vs - ⟨vs', h⟩
    exact ⟨_, .array h⟩
  · rintro t ps m - - ⟨ps', h⟩
    exact ⟨_, .object h (Members.collects_ofList order ps')⟩
  · rintro w t x v hw - hx ⟨v', h⟩
    exact ⟨_, .mk hw h hx⟩
  · rintro t v - ⟨v', h⟩
    exact ⟨_, .one h⟩
  · rintro t u v vs - - ⟨v', h⟩ ⟨vs', hs⟩
    exact ⟨_, .more h hs⟩
  · rintro w k s x t v hw hk hx - ⟨v', h⟩
    exact ⟨_, .mk hw hk hx h⟩
  · rintro t p - ⟨p', h⟩
    exact ⟨_, .one h⟩
  · rintro t u p ps - - ⟨p', h⟩ ⟨ps', hs⟩
    exact ⟨_, .more h hs⟩

end

end JsonDoc
