import JsonDoc.Proofs.Document.Soundness
import JsonDoc.Proofs.Value.Telling

/-!
# Histories of documents

A document that is read has objects whose members were stored one after another, in the order of the
text.  The grammar of documents is given once more, with the value that it makes told by these
histories (`TracesValue`); a document that is read is one that such a history tells
(`ReadState.Accepts.exists_traces`).
-/

namespace JsonDoc

mutual

/-- The characters make a traced value. -/
inductive TracesValue : List Char → Traced → Prop
  | null : TracesValue ['n', 'u', 'l', 'l'] .null
  | true : TracesValue ['t', 'r', 'u', 'e'] (.bool true)
  | false : TracesValue ['f', 'a', 'l', 's', 'e'] (.bool false)
  | integer {l : NumberLiteral} {i : Int64} (h : l.token = .ok (.integer i)) :
      TracesValue l.text (.integer i)
  | float {l : NumberLiteral} {x : Binary64} (h : l.token = .ok (.float x)) :
      TracesValue l.text (.float x)
  | string {t s : List Char} (h : SpellsString t s) :
      TracesValue ('"' :: (t ++ ['"'])) (.string (String.ofList s))
  | emptyArray {w : List Char} (hw : IsBlanks w) : TracesValue ('[' :: (w ++ [']'])) (.array [])
  | array {t : List Char} {vs : List Traced} (h : TracesElements t vs) :
      TracesValue ('[' :: (t ++ [']'])) (.array vs)
  | emptyObject {w : List Char} (hw : IsBlanks w) :
      TracesValue ('{' :: (w ++ ['}'])) (.object [])
  | object {t : List Char} {ps : List (String × Traced)} (h : TracesMembers t ps) :
      TracesValue ('{' :: (t ++ ['}'])) (.object (History.ofPairs ps))

/-- The characters make a traced value between blanks. -/
inductive TracesElement : List Char → Traced → Prop
  | mk {w t x : List Char} {v : Traced} (hw : IsBlanks w) (h : TracesValue t v)
      (hx : IsBlanks x) : TracesElement (w ++ (t ++ x)) v

/-- The characters make traced values with commas between them. -/
inductive TracesElements : List Char → List Traced → Prop
  | one {t : List Char} {v : Traced} (h : TracesElement t v) : TracesElements t [v]
  | more {t u : List Char} {v : Traced} {vs : List Traced} (h : TracesElement t v)
      (hs : TracesElements u vs) : TracesElements (t ++ ',' :: u) (v :: vs)

/-- The characters make a key and a traced value with a colon between them. -/
inductive TracesMember : List Char → String × Traced → Prop
  | mk {w k s x t : List Char} {v : Traced} (hw : IsBlanks w) (hk : SpellsString k s)
      (hx : IsBlanks x) (h : TracesElement t v) :
      TracesMember (w ++ ('"' :: (k ++ ['"']) ++ (x ++ ':' :: t))) (String.ofList s, v)

/-- The characters make members with commas between them. -/
inductive TracesMembers : List Char → List (String × Traced) → Prop
  | one {t : List Char} {p : String × Traced} (h : TracesMember t p) : TracesMembers t [p]
  | more {t u : List Char} {p : String × Traced} {ps : List (String × Traced)}
      (h : TracesMember t p) (hs : TracesMembers u ps) : TracesMembers (t ++ ',' :: u) (p :: ps)

end

open Traced (Tells)

variable {order : MemberOrder}

/-- What a text spells is told by a history that the text makes. -/
theorem SpellsElement.exists_traces {t : List Char} {v : Value}
    (h : SpellsElement NumberLiteral.Denotes order t v) :
    ∃ x, TracesElement t x ∧ Tells order x v := by
  refine @SpellsElement.rec _ order
    (fun t v _ => ∃ x, TracesValue t x ∧ Tells order x v)
    (fun t v _ => ∃ x, TracesElement t x ∧ Tells order x v)
    (fun t vs _ => ∃ xs, TracesElements t xs ∧ List.Forall₂ (Tells order) xs vs)
    (fun t q _ => ∃ p, TracesMember t p ∧ Traced.TellsMember order p q)
    (fun t qs _ => ∃ ps, TracesMembers t ps ∧ List.Forall₂ (Traced.TellsMember order) ps qs)
    ⟨_, .null, .null⟩ ⟨_, .true, .bool true⟩ ⟨_, .false, .bool false⟩ ?_
    (fun h => ⟨_, .string h, .string _⟩) (fun hw => ⟨_, .emptyArray hw, .array .nil⟩) ?_
    (fun hw => ⟨_, .emptyObject hw, Traced.tells_empty order⟩) ?_ ?_ ?_ ?_ ?_ ?_ ?_ t v h
  · rintro l v (⟨i, hi, rfl⟩ | ⟨x, hx, rfl⟩)
    · exact ⟨_, .integer hi, .integer i⟩
    · exact ⟨_, .float hx, .float x⟩
  · rintro t vs - ⟨xs, hxs, htells⟩
    exact ⟨_, .array hxs, .array htells⟩
  · rintro t qs m - hm ⟨ps, hps, htells⟩
    obtain rfl := Members.collects_iff.mp hm
    exact ⟨_, .object hps, Traced.tells_ofPairs htells⟩
  · rintro w t x v hw - hx ⟨y, hy, htells⟩
    exact ⟨_, .mk hw hy hx, htells⟩
  · rintro t v - ⟨x, hx, htells⟩
    exact ⟨_, .one hx, .cons htells .nil⟩
  · rintro t u v vs - - ⟨x, hx, htells⟩ ⟨xs, hxs, hstells⟩
    exact ⟨_, .more hx hxs, .cons htells hstells⟩
  · rintro w k s x t v hw hk hx - ⟨y, hy, htells⟩
    exact ⟨_, .mk hw hk hx hy, rfl, htells⟩
  · rintro t q - ⟨p, hp, htells⟩
    exact ⟨_, .one hp, .cons htells .nil⟩
  · rintro t u q qs - - ⟨p, hp, htells⟩ ⟨ps, hps, hstells⟩
    exact ⟨_, .more hp hps, .cons htells hstells⟩

/-- A document that is read is told by a history that the text makes. -/
theorem ReadState.Accepts.exists_traces {u : List Char} {v : Value}
    (h : ReadState.start.Accepts (Document.unlimited order) u v) :
    ∃ x, TracesElement u x ∧ Tells order x v :=
  (ReadState.spellsElement_of_accepts (fun _ _ h => h) h).exists_traces

end JsonDoc
