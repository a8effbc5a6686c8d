import JsonDoc.Proofs.Document.Completeness
import JsonDoc.Proofs.Value.Parts

/-!
# Values whose objects are in order

The members of an object are a map: no key is there twice, and keys that are kept in their own order
are in it.  Values are `Value.Keyed` if this holds of every object in them, and those that are read
are (`Document.keyed_of_parse`).
-/

namespace JsonDoc

namespace Value

mutual

/-- Every object has each of its keys once, and in their own order if they are kept in it. -/
def Keyed (order : MemberOrder) : Value → Prop
  | array elements => KeyedElements order elements
  | object ⟨entries⟩ => Members.WellKeyed order ⟨entries⟩ ∧ KeyedMembers order entries
  | _ => True

def KeyedElements (order : MemberOrder) : List Value → Prop
  | [] => True
  | x :: xs => x.Keyed order ∧ KeyedElements order xs

def KeyedMembers (order : MemberOrder) : List (String × Value) → Prop
  | [] => True
  | (_, x) :: members => x.Keyed order ∧ KeyedMembers order members

end

variable {order : MemberOrder}

theorem keyedElements_iff {elements : List Value} :
    KeyedElements order elements ↔ ∀ x ∈ elements, x.Keyed order := by
  induction elements with
  | nil => exact iff_of_true trivial nofun
  | cons x elements ih => rw [List.forall_mem_cons, ← ih, KeyedElements]

theorem keyedMembers_iff {members : List (String × Value)} :
    KeyedMembers order members ↔ ∀ p ∈ members, p.2.Keyed order := by
  induction members with
  | nil => exact iff_of_true trivial nofun
  | cons p members ih => rw [List.forall_mem_cons, ← ih, KeyedMembers]

theorem keyed_array_iff {xs : List Value} :
    (array xs).Keyed order ↔ ∀ x ∈ xs, x.Keyed order := keyedElements_iff

theorem keyed_object_iff {m : Members Value} :
    (object m).Keyed order ↔ m.WellKeyed order ∧ ∀ p ∈ m.entries, p.2.Keyed order := by
  rw [← keyedMembers_iff, Keyed]

theorem Keyed.part {v x : Value} {s : PathStep} (h : v.Keyed order) (hx : v.part s = .ok x) :
    x.Keyed order := by
  cases s with
  | index i =>
    obtain ⟨xs, rfl, hget⟩ := exists_of_part_index hx
    exact keyed_array_iff.mp h x (List.mem_of_getElem? hget)
  | key k =>
    obtain ⟨m, rfl, hfind⟩ := exists_of_part_key hx
    exact (keyed_object_iff.mp h).2 _ (Members.mem_of_find? hfind)

theorem Keyed.follow {v x : Value} {path : List PathStep} (h : v.Keyed order)
    (hx : v.follow (fun _ e => e) path = .ok x) : x.Keyed order := by
  induction path generalizing v with
  | nil =>
    cases hx
    exact h
  | cons s path ih =>
    rw [follow_cons] at hx
    cases hpart : v.part s with
    | error e =>
      rw [hpart] at hx
      cases hx
    | ok y =>
      rw [hpart] at hx
      exact ih (h.part hpart) hx

theorem IsNumber.keyed {v : Value} (h : v.IsNumber) : v.Keyed order := by
  cases v with
  | integer i => trivial
  | float x => trivial
  | _ => exact absurd h id

end Value

/-- What a text spells is keyed. -/
theorem SpellsElement.keyed {order : MemberOrder} {t : List Char} {v : Value}
    (h : SpellsElement (fun _ x => x.IsNumber) order t v) : v.Keyed order := by
  refine @SpellsElement.rec _ order
    (fun _ v _ => v.Keyed order) (fun _ v _ => v.Keyed order)
    (fun _ vs _ => Value.KeyedElements order vs) (fun _ p _ => p.2.Keyed order)
    (fun _ ps _ => Value.KeyedMembers order ps)
    trivial trivial trivial (fun h => h.keyed) (fun _ => trivial) (fun _ => trivial)
    (fun _ h => h) ?_ ?_ (fun _ _ _ h => h) (fun _ h => ⟨h, trivial⟩) (fun _ _ h hs => ⟨h, hs⟩)
    (fun _ _ _ _ h => h) (fun _ h => ⟨h, trivial⟩) (fun _ _ h hs => ⟨h, hs⟩) t v h
  · intro w _
    exact ⟨Members.wellKeyed_empty order, trivial⟩
  · intro t ps m _ hm hps
    obtain rfl := Members.collects_iff.mp hm
    exact Value.keyed_object_iff.mpr ⟨Members.wellKeyed_ofList order ps,
      Members.forall_mem_ofList (Value.keyedMembers_iff.mp hps)⟩

theorem Document.keyed_of_parse {order : MemberOrder} {text : String} {v : Value}
    (h : Document.parse order text = .ok v) : v.Keyed order :=
  (ReadState.spellsElement_of_accepts (fun _ _ hx => hx.isNumber) (accepts_of_parse h)).keyed

end JsonDoc
