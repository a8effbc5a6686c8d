import JsonDoc.Value.Path

/-!
# Parts of values

What holds of null, truth values, numbers and strings, and of a container if it holds of its items,
holds of every value (`Value.induction`).  A value is a part of itself, and the parts of its items
are parts of it (`Value.PartOf`).
-/

namespace JsonDoc.Value

/-- What holds of a container if it holds of its items holds of every value. -/
theorem induction {P : Value → Prop} (null : P null) (bool : ∀ b, P (bool b))
    (integer : ∀ i, P (integer i)) (float : ∀ x, P (float x)) (string : ∀ s, P (string s))
    (array : ∀ xs : List Value, (∀ x ∈ xs, P x) → P (array xs))
    (object : ∀ m : Members Value, (∀ p ∈ m.entries, P p.2) → P (object m)) (v : Value) : P v :=
  @Value.rec P (fun xs => ∀ x ∈ xs, P x) (fun m => ∀ p ∈ m.entries, P p.2)
    (fun ps => ∀ p ∈ ps, P p.2) (fun p => P p.2)
    null bool integer float string array object (by simp)
    (fun _ _ hx hxs => List.forall_mem_cons.mpr ⟨hx, hxs⟩) (fun _ h => h) (by simp)
    (fun _ _ hp hps => List.forall_mem_cons.mpr ⟨hp, hps⟩) (fun _ _ h => h) v

/-- The first value occurs in the second. -/
inductive PartOf (v : Value) : Value → Prop
  | refl : PartOf v v
  | element {x : Value} {xs : List Value} (hx : x ∈ xs) (h : PartOf v x) : PartOf v (array xs)
  | member {p : String × Value} {m : Members Value} (hp : p ∈ m.entries) (h : PartOf v p.2) :
      PartOf v (object m)

/-! ### Steps of a path -/

section

variable {v x : Value} {xs : List Value} {m : Members Value} {index : Nat} {key : String}

theorem part_index (h : index < xs.length) : (array xs).part (.index index) = .ok xs[index] := by
  simp only [part, element, asArray, bind, Except.bind, List.getElem?_eq_getElem h]

theorem part_key (h : m.find? key = some x) : (object m).part (.key key) = .ok x := by
  simp only [part, member, asObject, bind, Except.bind, h]

theorem exists_of_part_index (h : v.part (.index index) = .ok x) :
    ∃ xs, v = array xs ∧ xs[index]? = some x := by
  cases v with
  | array xs =>
    refine ⟨xs, rfl, ?_⟩
    simp only [part, element, asArray, bind, Except.bind] at h
    cases hx : xs[index]? with
    | none =>
      rw [hx] at h
      cases h
    | some y =>
      rw [hx] at h
      cases h
      rfl
  | _ => cases h

theorem exists_of_part_key (h : v.part (.key key) = .ok x) :
    ∃ m, v = object m ∧ m.find? key = some x := by
  cases v with
  | object m =>
    refine ⟨m, rfl, ?_⟩
    simp only [part, member, asObject, bind, Except.bind] at h
    cases hx : m.find? key with
    | none =>
      rw [hx] at h
      cases h
    | some y =>
      rw [hx] at h
      cases h
      rfl
  | _ => cases h

theorem part_array_iff {s : PathStep} :
    (array xs).part s = .ok x ↔ ∃ i, s = .index i ∧ xs[i]? = some x := by
  constructor
  · intro h
    cases s with
    | key k => cases h
    | index i =>
      obtain ⟨ys, hys, hget⟩ := exists_of_part_index h
      cases hys
      exact ⟨i, rfl, hget⟩
  · rintro ⟨i, rfl, hget⟩
    obtain ⟨hi, rfl⟩ := List.getElem?_eq_some_iff.mp hget
    exact part_index hi

theorem part_object_iff {s : PathStep} :
    (object m).part s = .ok x ↔ ∃ k, s = .key k ∧ m.find? k = some x := by
  constructor
  · intro h
    cases s with
    | index i => cases h
    | key k =>
      obtain ⟨n, hn, hfind⟩ := exists_of_part_key h
      cases hn
      exact ⟨k, rfl, hfind⟩
  · rintro ⟨k, rfl, hfind⟩
    exact part_key hfind

end

/-! ### The numbers in a value -/

section

variable {x : Binary64}

@[simp] theorem float_partOf_float_iff {y : Binary64} : (float x).PartOf (float y) ↔ x = y :=
  ⟨fun | .refl => rfl, fun | rfl => .refl⟩

@[simp] theorem not_float_partOf_null : ¬ (float x).PartOf null := nofun

@[simp] theorem not_float_partOf_bool {b : Bool} : ¬ (float x).PartOf (bool b) := nofun

@[simp] theorem not_float_partOf_integer {i : Int64} : ¬ (float x).PartOf (integer i) := nofun

@[simp] theorem not_float_partOf_string {s : String} : ¬ (float x).PartOf (string s) := nofun

@[simp] theorem float_partOf_array_iff {xs : List Value} :
    (float x).PartOf (array xs) ↔ ∃ y ∈ xs, (float x).PartOf y :=
  ⟨fun | .element hy h => ⟨_, hy, h⟩, fun ⟨_, hy, h⟩ => .element hy h⟩

@[simp] theorem float_partOf_object_iff {m : Members Value} :
    (float x).PartOf (object m) ↔ ∃ p ∈ m.entries, (float x).PartOf p.2 :=
  ⟨fun | .member hp h => ⟨_, hp, h⟩, fun ⟨_, hp, h⟩ => .member hp h⟩

end

end JsonDoc.Value
