import JsonDoc.Proofs.Value.Keyed
import JsonDoc.Proofs.Value.Parts

/-!
# Sorted values

The members of an object can be put in the order of their keys (`Members.sorted`), and those of
every object in a value as well (`Value.sort`).  This leaves what is under each key as it is, so that
to store a value among sorted members is to store it anywhere and to sort them
(`Members.insert_sorted`).
-/

namespace JsonDoc

namespace Members

variable {α β : Type} {m : Members α}

/-- The members with their values made others. -/
def map (f : α → β) (m : Members α) : Members β := ⟨m.entries.map fun (key, x) => (key, f x)⟩

/-- The members in the order of their keys. -/
def sorted (m : Members α) : Members α := ⟨m.entries.insertionSort fun p q => p.1 ≤ q.1⟩

/-! ### Values made others -/

@[simp] theorem keys_map (f : α → β) (m : Members α) : (m.map f).keys = m.keys := by
  simp [keys, map, Function.comp_def]

@[simp] theorem find?_map (f : α → β) (key : String) (m : Members α) :
    (m.map f).find? key = (m.find? key).map f := by
  obtain ⟨entries⟩ := m
  simp only [find?, map]
  induction entries with
  | nil => rfl
  | cons p rest ih =>
    obtain ⟨k, x⟩ := p
    by_cases hk : k = key <;> simp [lookup?, hk, ih]

/-! ### Members in the order of their keys -/

theorem perm_keys_sorted (m : Members α) : m.sorted.keys.Perm m.keys :=
  (List.perm_insertionSort _ m.entries).map Prod.fst

theorem wellKeyed_sorted (h : m.keys.Nodup) : m.sorted.WellKeyed .byKey := by
  have hle : m.sorted.keys.Pairwise (· ≤ ·) :=
    List.pairwise_map.mpr (List.pairwise_insertionSort _ m.entries)
  have hnodup : m.sorted.keys.Nodup := (perm_keys_sorted m).nodup_iff.mpr h
  exact (hle.and hnodup).imp fun h => lt_of_le_of_ne h.1 h.2

theorem find?_sorted (h : m.keys.Nodup) (key : String) : m.sorted.find? key = m.find? key := by
  have hnodup : m.sorted.keys.Nodup := (perm_keys_sorted m).nodup_iff.mpr h
  refine Option.ext fun x => ?_
  rw [find?, find?, lookup?_eq_some_iff hnodup, lookup?_eq_some_iff h]
  exact (List.perm_insertionSort _ m.entries).mem_iff

/-- Members in the order of their keys are told by the values under the keys. -/
theorem eq_of_wellKeyed_byKey {m' : Members α} (h : m.WellKeyed .byKey) (h' : m'.WellKeyed .byKey)
    (hfind : ∀ key, m.find? key = m'.find? key) : m = m' := by
  refine eq_of_keys_eq (List.Pairwise.eq_of_mem_iff h h' fun key => ?_) h.nodup hfind
  rw [← not_iff_not, ← find?_eq_none_iff, ← find?_eq_none_iff, hfind]

/-- A value that is stored among sorted members stands where it would after sorting. -/
theorem insert_sorted (f : α → β) (h : m.WellKeyed .insertion) (key : String) (x : α) :
    ((m.map f).sorted.insert .byKey key (f x)).2 =
      ((m.insert .insertion key x).2.map f).sorted := by
  have hmap : (m.map f).keys.Nodup := (congrArg List.Nodup (keys_map f m)).mpr h
  have hinsert : ((m.insert .insertion key x).2.map f).keys.Nodup :=
    (congrArg List.Nodup (keys_map f _)).mpr (h.insert key x)
  refine eq_of_wellKeyed_byKey ((wellKeyed_sorted hmap).insert key (f x))
    (wellKeyed_sorted hinsert) fun k => ?_
  rw [find?_insert, find?_sorted hmap, find?_map, find?_sorted hinsert, find?_map, find?_insert]
  split <;> rfl

end Members

namespace Value

mutual

/-- The value with the members of every object in the order of their keys. -/
def sort : Value → Value
  | array elements => array (sortElements elements)
  | object ⟨entries⟩ => object (Members.sorted ⟨sortMembers entries⟩)
  | v => v

def sortElements : List Value → List Value
  | [] => []
  | x :: xs => x.sort :: sortElements xs

def sortMembers : List (String × Value) → List (String × Value)
  | [] => []
  | (key, x) :: members => (key, x.sort) :: sortMembers members

end

theorem sort_array (xs : List Value) : (array xs).sort = array (xs.map sort) := by
  have hxs : ∀ xs, sortElements xs = xs.map sort := fun xs => by
    induction xs with
    | nil => rfl
    | cons x xs ih => rw [sortElements, ih, List.map_cons]
  rw [sort, hxs]

theorem sort_object (m : Members Value) : (object m).sort = object (m.map sort).sorted := by
  obtain ⟨entries⟩ := m
  have hentries : ∀ entries : List (String × Value),
      sortMembers entries = (Members.map sort ⟨entries⟩).entries := by
    intro entries
    induction entries with
    | nil => rfl
    | cons p entries ih =>
      rw [sortMembers, ih]
      rfl
  rw [sort, hentries]

end Value

end JsonDoc
