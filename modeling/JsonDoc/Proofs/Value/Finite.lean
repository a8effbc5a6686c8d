import JsonDoc.Proofs.Document.Completeness

/-!
# Values whose numbers are finite

No text denotes an infinity or not-a-number, so the values that are read have finite numbers only
(`Document.allFinite_of_parse`).
-/

namespace JsonDoc

namespace Value

mutual

/-- Every floating point number is finite. -/
def AllFinite : Value → Prop
  | float x => x.isFinite
  | array elements => AllFiniteElements elements
  | object ⟨entries⟩ => AllFiniteMembers entries
  | _ => True

def AllFiniteElements : List Value → Prop
  | [] => True
  | x :: xs => x.AllFinite ∧ AllFiniteElements xs

def AllFiniteMembers : List (String × Value) → Prop
  | [] => True
  | (_, x) :: members => x.AllFinite ∧ AllFiniteMembers members

end

theorem allFiniteMembers_iff {members : List (String × Value)} :
    AllFiniteMembers members ↔ ∀ p ∈ members, p.2.AllFinite := by
  induction members with
  | nil => exact iff_of_true trivial nofun
  | cons p members ih => rw [List.forall_mem_cons, ← ih, AllFiniteMembers]

theorem IsNumber.allFinite {v : Value} (h : v.IsNumber) : v.AllFinite := by
  cases v with
  | integer i => trivial
  | float x => exact h
  | _ => exact absurd h id

end Value

/-- The numbers of what a text spells are finite. -/
theorem SpellsElement.allFinite {order : MemberOrder} {t : List Char} {v : Value}
    (h : SpellsElement (fun _ x => x.IsNumber) order t v) : v.AllFinite := by
  refine @SpellsElement.rec _ order
    (fun _ v _ => v.AllFinite) (fun _ v _ => v.AllFinite)
    (fun _ vs _ => Value.AllFiniteElements vs) (fun _ p _ => p.2.AllFinite)
    (fun _ ps _ => Value.AllFiniteMembers ps)
    trivial trivial trivial (fun h => h.allFinite) (fun _ => trivial) (fun _ => trivial)
    (fun _ h => h) (fun _ => trivial) ?_ (fun _ _ _ h => h) (fun _ h => ⟨h, trivial⟩)
    (fun _ _ h hs => ⟨h, hs⟩) (fun _ _ _ _ h => h) (fun _ h => ⟨h, trivial⟩)
    (fun _ _ h hs => ⟨h, hs⟩) t v h
  intro t ps m _ hm hps
  obtain rfl := Members.collects_iff.mp hm
  exact Value.allFiniteMembers_iff.mpr
    (Members.forall_mem_ofList (Value.allFiniteMembers_iff.mp hps))

theorem Document.allFinite_of_parse {order : MemberOrder} {text : String} {v : Value}
    (h : Document.parse order text = .ok v) : v.AllFinite :=
  (ReadState.spellsElement_of_accepts (fun _ _ hx => hx.isNumber) (accepts_of_parse h)).allFinite

end JsonDoc
