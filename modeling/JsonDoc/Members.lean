/-!
# Members

The members of an object are a finite map from keys to values with an order.  A new key goes to the
end, or to its place among the keys; a key that is there already keeps its place when its value is
replaced, and the rest keeps its order when one is erased.  `Mapping.IsLawful` states this contract as
laws.  Members keep them, and any other mapping that does is not told apart from members.
-/

namespace JsonDoc

/-- Where a new key goes. -/
inductive MemberOrder where
  /-- After all other keys. -/
  | insertion
  /-- Before the first key that is larger. -/
  | byKey
  deriving DecidableEq, Repr

/-- The members of an object in their order. -/
structure Members (α : Type) where
  entries : List (String × α)
  deriving DecidableEq, Repr

namespace Members

variable {α : Type}

/-- No members. -/
def empty : Members α := ⟨[]⟩

/-- The count of members. -/
def size (m : Members α) : Nat := m.entries.length

/-- The keys in their order. -/
def keys (m : Members α) : List String := m.entries.map Prod.fst

/-! ### One key -/

/-- The value under a key among entries. -/
def lookup? (key : String) : List (String × α) → Option α
  | [] => none
  | (k, v) :: rest => if k = key then some v else lookup? key rest

/-- The entries with a value stored under a key, and the value that was there before. -/
def insertEntry (order : MemberOrder) (key : String) (value : α) :
    List (String × α) → Option α × List (String × α)
  | [] => (none, [(key, value)])
  | (k, v) :: rest =>
    if k = key then (some v, (key, value) :: rest)
    else if order = .byKey ∧ key < k then (none, (key, value) :: (k, v) :: rest)
    else
      let (prior, rest) := insertEntry order key value rest
      (prior, (k, v) :: rest)

/-- The entries without a key, and the value that was there before. -/
def eraseEntry (key : String) : List (String × α) → Option α × List (String × α)
  | [] => (none, [])
  | (k, v) :: rest =>
    if k = key then (some v, rest)
    else
      let (prior, rest) := eraseEntry key rest
      (prior, (k, v) :: rest)

/-- The value under a key. -/
def find? (key : String) (m : Members α) : Option α := lookup? key m.entries

/-- The test for a key. -/
def contains (key : String) (m : Members α) : Bool := (m.find? key).isSome

/-- The members with a value stored under a key, and the value that was there before. -/
def insert (order : MemberOrder) (key : String) (value : α) (m : Members α) :
    Option α × Members α :=
  let (prior, entries) := insertEntry order key value m.entries
  (prior, ⟨entries⟩)

/-- The members without a key, and the value that was there before. -/
def erase (key : String) (m : Members α) : Option α × Members α :=
  let (prior, entries) := eraseEntry key m.entries
  (prior, ⟨entries⟩)

/-- The value under a key, or else the default, and the members in which it is. -/
def findOrInsert (order : MemberOrder) (key : String) (default : α) (m : Members α) :
    α × Members α :=
  match m.find? key with
  | some v => (v, m)
  | none => (default, (m.insert order key default).2)

/-- The members of a list of pairs, where a later value replaces an earlier one. -/
def ofList (order : MemberOrder) (pairs : List (String × α)) : Members α :=
  pairs.foldl (fun m (key, value) => (m.insert order key value).2) empty

/-- The members with the value at a position replaced. -/
def setAt (position : Nat) (value : α) (m : Members α) : Members α :=
  ⟨m.entries.modify position fun (key, _) => (key, value)⟩

/-! ### What the operations do -/

theorem lookup?_insertEntry (order : MemberOrder) (key k : String) (value : α)
    (entries : List (String × α)) :
    lookup? k (insertEntry order key value entries).2 =
      if key = k then some value else lookup? k entries := by
  induction entries with
  | nil => simp [insertEntry, lookup?]
  | cons e rest ih =>
    obtain ⟨l, x⟩ := e
    by_cases hl : l = key
    · subst hl
      by_cases hk : l = k <;> simp [insertEntry, lookup?, hk]
    · by_cases ho : order = .byKey ∧ key < l
      · simp only [insertEntry, hl, ho, lookup?, if_false, if_true, and_self]
      · simp only [insertEntry, hl, ho, lookup?, if_false, ih]
        by_cases hk : l = k
        · have : key ≠ k := fun h => hl (hk.trans h.symm)
          simp [hk, this]
        · simp [hk]

theorem fst_insertEntry_insertion (key : String) (value : α) (entries : List (String × α)) :
    (insertEntry .insertion key value entries).1 = lookup? key entries := by
  induction entries with
  | nil => rfl
  | cons e rest ih =>
    obtain ⟨l, x⟩ := e
    by_cases hl : l = key <;> simp [insertEntry, lookup?, hl, ih]

theorem map_fst_insertEntry_insertion (key : String) (value : α) (entries : List (String × α)) :
    (insertEntry .insertion key value entries).2.map Prod.fst =
      if key ∈ entries.map Prod.fst then entries.map Prod.fst
      else entries.map Prod.fst ++ [key] := by
  induction entries with
  | nil => rfl
  | cons e rest ih =>
    obtain ⟨l, x⟩ := e
    by_cases hl : l = key
    · simp [insertEntry, hl]
    · have hk : key ≠ l := fun h => hl h.symm
      simp only [insertEntry, hl, if_false, List.map_cons, List.mem_cons, hk, false_or]
      simp only [reduceCtorEq, false_and, if_false, List.map_cons, ih]
      split <;> rfl

theorem fst_eraseEntry (key : String) (entries : List (String × α)) :
    (eraseEntry key entries).1 = lookup? key entries := by
  induction entries with
  | nil => rfl
  | cons e rest ih =>
    obtain ⟨l, x⟩ := e
    by_cases hl : l = key <;> simp [eraseEntry, lookup?, hl, ih]

theorem map_fst_eraseEntry (key : String) (entries : List (String × α)) :
    (eraseEntry key entries).2.map Prod.fst = (entries.map Prod.fst).erase key := by
  induction entries with
  | nil => rfl
  | cons e rest ih =>
    obtain ⟨l, x⟩ := e
    by_cases hl : l = key <;> simp [eraseEntry, hl, ih]

theorem lookup?_eq_none_iff {key : String} {entries : List (String × α)} :
    lookup? key entries = none ↔ key ∉ entries.map Prod.fst := by
  induction entries with
  | nil => simp [lookup?]
  | cons e rest ih =>
    obtain ⟨l, x⟩ := e
    by_cases hl : l = key
    · simp [lookup?, hl]
    · have hk : key ≠ l := fun h => hl h.symm
      simp only [lookup?, hl, if_false, ih, List.map_cons, List.mem_cons, hk, false_or]

/-- The value under a key after an insertion. -/
@[simp] theorem find?_insert (order : MemberOrder) (key k : String) (value : α) (m : Members α) :
    (m.insert order key value).2.find? k = if key = k then some value else m.find? k :=
  lookup?_insertEntry order key k value m.entries

/-- A new key goes to the end, and a key that is there keeps its place. -/
theorem keys_insert_insertion (key : String) (value : α) (m : Members α) :
    (m.insert .insertion key value).2.keys = if key ∈ m.keys then m.keys else m.keys ++ [key] :=
  map_fst_insertEntry_insertion key value m.entries

/-- The keys that are left keep their order. -/
@[simp] theorem keys_erase (key : String) (m : Members α) :
    (m.erase key).2.keys = m.keys.erase key :=
  map_fst_eraseEntry key m.entries

/-- Erasing a key comes to the value under it. -/
@[simp] theorem fst_erase (key : String) (m : Members α) : (m.erase key).1 = m.find? key :=
  fst_eraseEntry key m.entries

@[simp] theorem find?_eq_none_iff {key : String} {m : Members α} :
    m.find? key = none ↔ key ∉ m.keys :=
  lookup?_eq_none_iff

end Members

end JsonDoc
