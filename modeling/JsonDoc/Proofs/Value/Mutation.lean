import Mathlib.Tactic
import JsonDoc.Value.Edit

/-!
# Mutations that fail

The operations that change a value in place, as one type (`Mutation`).  Those that come to a part of
the value are taken together with what is done to the part.  A mutation that fails leaves the value
as it was, but for the insertion of an element into null past the start (`Mutation.run_error`).
-/

namespace JsonDoc

namespace Edit

open Value

variable {ε α : Type}

/-! ### Parts that are made use of -/

/-- Any use of the string, which may change it. -/
def usingString (use : String → α × String) : Edit Error α := fun v =>
  match v with
  | string s => .ok (use s).1 (string (use s).2)
  | v => .error (v.typeMismatch "string") v

/-- Any use of the elements of an array. -/
def usingArray (use : List Value → α × List Value) : Edit Error α := fun v =>
  match v with
  | array elements => .ok (use elements).1 (array (use elements).2)
  | v => .error (v.typeMismatch "array") v

/-- Any use of the members of an object. -/
def usingObject (use : Members Value → α × Members Value) : Edit Error α := fun v =>
  match v with
  | object members => .ok (use members).1 (object (use members).2)
  | v => .error (v.typeMismatch "object") v

/-- Values in place of items, one after another. -/
def assignItems : List (ℕ × Value) → Edit Error Unit
  | [] => pure ()
  | (position, x) :: writes => do
    assignItem position x
    assignItems writes

/-- The items of a container, of which some are then assigned to. -/
def visit (writes : List (ℕ × Value)) : Edit Error (List (Option String × Value)) := do
  let visited ← items
  assignItems writes
  return visited

theorem append_eq (suffix : String) :
    append suffix = usingString fun s => (s ++ suffix, s ++ suffix) := by
  funext v
  cases v <;> rfl

theorem removeElement_eq (index : ℕ) :
    removeElement index = usingArray (Elements.removeAt index) := by
  funext v
  cases v <;> rfl

theorem findOrInsert_eq (order : MemberOrder) (key : String) :
    findOrInsert order key = usingObject (Members.findOrInsert order key null) := by
  funext v
  cases v <;> rfl

theorem removeMember_eq (key : String) : removeMember key = usingObject (Members.erase key) := by
  funext v
  cases v <;> rfl

/-! ### Edits that change nothing when they fail -/

/-- An edit that fails leaves the value as it was. -/
def KeepsOnError (edit : Edit ε α) : Prop := ∀ v e w, edit v = .error e w → w = v

theorem orArray_eq_self {v : Value} (h : ∀ xs, v.orArray ≠ array xs) : v.orArray = v := by
  cases v with
  | null => exact absurd rfl (h [])
  | _ => rfl

theorem orObject_eq_self {v : Value} (h : ∀ m, v.orObject ≠ object m) : v.orObject = v := by
  cases v with
  | null => exact absurd rfl (h .empty)
  | _ => rfl

/-- An element is there once there is an array, so that only a use of it can fail. -/
theorem keepsOnError_element {edit : Edit ε α} (hedit : ∀ v e w, edit v ≠ .error e w)
    (fault : Error → ε) (index : ℕ) : (element fault index edit).KeepsOnError := by
  intro v e w h
  unfold element at h
  split at h
  case h_1 elements _ =>
    dsimp only at h
    cases hx : edit ((Elements.extendTo (index + 1) null elements).getD index null) with
    | ok a x =>
      rw [hx] at h
      cases h
    | error e x => exact absurd hx (hedit _ e x)
  case h_2 hne =>
    cases h
    exact orArray_eq_self hne

theorem keepsOnError_member {edit : Edit ε α} (hedit : ∀ v e w, edit v ≠ .error e w)
    (order : MemberOrder) (fault : Error → ε) (key : String) :
    (member order fault key edit).KeepsOnError := by
  intro v e w h
  unfold member at h
  split at h
  case h_1 members _ =>
    dsimp only at h
    cases hx : edit (members.findOrInsert order key null).1 with
    | ok a x =>
      rw [hx] at h
      cases h
    | error e x => exact absurd hx (hedit _ e x)
  case h_2 hne =>
    cases h
    exact orObject_eq_self hne

theorem keepsOnError_push (x : Value) : (push x).KeepsOnError := by
  intro v e w h
  unfold push at h
  split at h
  case h_1 => cases h
  case h_2 hne =>
    cases h
    exact orArray_eq_self hne

theorem keepsOnError_insert (order : MemberOrder) (key : String) (x : Value) :
    (insert order key x).KeepsOnError := by
  intro v e w h
  unfold insert at h
  split at h
  case h_1 => cases h
  case h_2 hne =>
    cases h
    exact orObject_eq_self hne

theorem keepsOnError_replace (order : MemberOrder) (key : String) (x : Value) :
    (replace order key x).KeepsOnError := by
  intro v e w h
  unfold replace at h
  split at h
  case h_1 members =>
    cases hx : members.find? key <;> rw [hx] at h <;> cases h
  case h_2 =>
    cases h
    rfl

/-- An index beyond the end removes nothing. -/
theorem keepsOnError_eraseIndex (index : ℕ) : (eraseIndex index).KeepsOnError := by
  intro v e w h
  unfold eraseIndex removeElement Elements.removeAt at h
  cases v with
  | array elements =>
    cases hx : elements[index]? with
    | some x =>
      simp only [hx] at h
      cases h
    | none =>
      simp only [hx] at h
      cases h
      rw [List.eraseIdx_of_length_le (List.getElem?_eq_none_iff.mp hx)]
  | _ =>
    cases h
    rfl

theorem keepsOnError_eraseRange (start stop : ℕ) : (eraseRange start stop).KeepsOnError := by
  intro v e w h
  unfold eraseRange at h
  split at h
  case h_1 elements =>
    split at h
    case isTrue => cases h
    case isFalse =>
      cases h
      rfl
  case h_2 =>
    cases h
    rfl

theorem keepsOnError_eraseKey (key : String) : (eraseKey key).KeepsOnError := by
  intro v e w h
  cases v <;> cases h <;> rfl

theorem keepsOnError_usingString (use : String → α × String) :
    (usingString use).KeepsOnError := by
  intro v e w h
  cases v <;> cases h <;> rfl

theorem keepsOnError_usingArray (use : List Value → α × List Value) :
    (usingArray use).KeepsOnError := by
  intro v e w h
  cases v <;> cases h <;> rfl

theorem keepsOnError_usingObject (use : Members Value → α × Members Value) :
    (usingObject use).KeepsOnError := by
  intro v e w h
  cases v <;> cases h <;> rfl

/-- Assigning to the items of a container does not fail. -/
theorem assignItems_ne_error (writes : List (ℕ × Value)) {v : Value}
    (hv : ∃ all, v.items = .ok all) (e : Error) (w : Value) :
    assignItems writes v ≠ .error e w := by
  induction writes generalizing v with
  | nil => nofun
  | cons write writes ih =>
    obtain ⟨all, hall⟩ := hv
    cases v with
    | array elements => exact ih (v := .array (elements.set write.1 write.2)) ⟨_, rfl⟩
    | object members => exact ih (v := .object (members.setAt write.1 write.2)) ⟨_, rfl⟩
    | _ => cases hall

theorem keepsOnError_visit (writes : List (ℕ × Value)) : (visit writes).KeepsOnError := by
  intro v e w h
  cases hall : v.items with
  | error fault =>
    have hitems : items v = .error fault v := by rw [items, hall]
    simp only [visit, bind, EStateM.bind, hitems] at h
    cases h
    rfl
  | ok all =>
    have hitems : items v = .ok all v := by rw [items, hall]
    cases hassign : assignItems writes v with
    | ok _ _ =>
      simp only [visit, bind, EStateM.bind, hitems, hassign] at h
      cases h
    | error e x => exact absurd hassign (assignItems_ne_error writes ⟨all, hall⟩ e x)

end Edit

/-! ### Mutations -/

/-- A mutation with its arguments, by the type of what it comes to. -/
inductive Mutation : Type → Type
  /-- An element, made if it is missing, in place of which a value is put. -/
  | elementAt (index : ℕ) (x : Value) : Mutation Unit
  /-- The value of a member, made if it is missing, in place of which another is put. -/
  | memberAt (key : String) (x : Value) : Mutation Unit
  /-- The value of a member that is there, in place of which another is put. -/
  | replace (key : String) (x : Value) : Mutation (Option Value)
  | push (x : Value) : Mutation Unit
  | insertAt (index : ℕ) (x : Value) : Mutation Unit
  | insert (key : String) (x : Value) : Mutation (Option Value)
  | eraseIndex (index : ℕ) : Mutation Value
  | eraseRange (start stop : ℕ) : Mutation Unit
  | eraseKey (key : String) : Mutation (Option Value)
  | visit (writes : List (ℕ × Value)) : Mutation (List (Option String × Value))
  | usingString (use : String → String) : Mutation Unit
  | usingArray (use : List Value → List Value) : Mutation Unit
  | usingObject (use : Members Value → Members Value) : Mutation Unit

namespace Mutation

open Value

/-- The edit that a mutation is. -/
def run (order : MemberOrder) : {α : Type} → Mutation α → Edit Error α
  | _, elementAt index x => Edit.element id index (Edit.assign x)
  | _, memberAt key x => Edit.member order id key (Edit.assign x)
  | _, replace key x => Edit.replace order key x
  | _, push x => Edit.push x
  | _, insertAt index x => Edit.insertAt index x
  | _, insert key x => Edit.insert order key x
  | _, eraseIndex index => Edit.eraseIndex index
  | _, eraseRange start stop => Edit.eraseRange start stop
  | _, eraseKey key => Edit.eraseKey key
  | _, visit writes => Edit.visit writes
  | _, usingString use => Edit.usingString fun s => ((), use s)
  | _, usingArray use => Edit.usingArray fun elements => ((), use elements)
  | _, usingObject use => Edit.usingObject fun members => ((), use members)

/-- The index at which the mutation inserts an element, if it is such an insertion. -/
def insertionIndex? {α : Type} : Mutation α → Option ℕ
  | insertAt index _ => some index
  | _ => none

/-- The mutation inserts an element into null, where there is none before it. -/
def InsertsBeyondNull {α : Type} (op : Mutation α) (v : Value) : Prop :=
  (∃ index, op.insertionIndex? = some index ∧ 0 < index) ∧ v = null

variable {α : Type} {order : MemberOrder}

/-- Every mutation but the insertion of an element leaves the value as it was if it fails. -/
theorem keepsOnError_run (op : Mutation α) (h : op.insertionIndex? = none) :
    (op.run order).KeepsOnError := by
  have hassign : ∀ (x v : Value) (e : Error) (w : Value), Edit.assign x v ≠ .error e w := nofun
  cases op with
  | elementAt index x => exact Edit.keepsOnError_element (hassign x) id index
  | memberAt key x => exact Edit.keepsOnError_member (hassign x) order id key
  | replace key x => exact Edit.keepsOnError_replace order key x
  | push x => exact Edit.keepsOnError_push x
  | insertAt index x => cases h
  | insert key x => exact Edit.keepsOnError_insert order key x
  | eraseIndex index => exact Edit.keepsOnError_eraseIndex index
  | eraseRange start stop => exact Edit.keepsOnError_eraseRange start stop
  | eraseKey key => exact Edit.keepsOnError_eraseKey key
  | visit writes => exact Edit.keepsOnError_visit writes
  | usingString use => exact Edit.keepsOnError_usingString _
  | usingArray use => exact Edit.keepsOnError_usingArray _
  | usingObject use => exact Edit.keepsOnError_usingObject _

/-- The insertion of an element makes null an array before the index is looked at. -/
theorem insertAt_error {index : ℕ} {x v w : Value} {e : Error}
    (h : Edit.insertAt index x v = .error e w) :
    (0 < index ∧ v = null ∧ e = .invalidIterator ∧ w = array []) ∨ (v ≠ null ∧ w = v) := by
  unfold Edit.insertAt at h
  cases v with
  | null =>
    simp only [orArray, List.length_nil] at h
    split at h
    case isTrue => cases h
    case isFalse hindex =>
      cases h
      exact Or.inl ⟨Nat.pos_of_ne_zero fun h₀ => hindex h₀.le, rfl, rfl, rfl⟩
  | array elements =>
    simp only [orArray] at h
    split at h
    case isTrue => cases h
    case isFalse =>
      cases h
      exact Or.inr ⟨nofun, rfl⟩
  | _ =>
    cases h
    exact Or.inr ⟨nofun, rfl⟩

/-- A mutation that fails leaves the value as it was, unless it is the insertion of an element into
null past the start: that one leaves an empty array. -/
theorem run_error (op : Mutation α) {v w : Value} {e : Error}
    (h : op.run order v = .error e w) :
    (op.InsertsBeyondNull v → e = .invalidIterator ∧ w = array []) ∧
      (¬ op.InsertsBeyondNull v → w = v) := by
  cases op with
  | insertAt index x =>
    rcases insertAt_error h with ⟨hindex, hv, he, hw⟩ | ⟨hv, hw⟩
    · exact ⟨fun _ => ⟨he, hw⟩, fun hn => absurd ⟨⟨index, rfl, hindex⟩, hv⟩ hn⟩
    · exact ⟨fun hn => absurd hn.2 hv, fun _ => hw⟩
  | _ =>
    refine ⟨?_, fun _ => keepsOnError_run _ rfl v e w h⟩
    rintro ⟨⟨index, hindex, -⟩, -⟩
    cases hindex

/-- A string takes no elements, and stays as it is. -/
theorem run_error_string :
    (push null).run .insertion (string "a") =
        .error (.typeMismatch "array" .string) (string "a") ∧
      ((push null).InsertsBeyondNull (string "a") →
        Error.typeMismatch "array" .string = .invalidIterator ∧ string "a" = array []) ∧
      (¬ (push null).InsertsBeyondNull (string "a") → string "a" = string "a") :=
  ⟨rfl, @run_error Unit .insertion (push null) (string "a") (string "a")
    (.typeMismatch "array" .string) rfl⟩

/-- Null is an array after the insertion at the index one has failed. -/
theorem insertAt_one_null :
    (insertAt 1 null).run .insertion null = .error .invalidIterator (array []) ∧
      array [] ≠ null :=
  ⟨rfl, nofun⟩

end Mutation

end JsonDoc
