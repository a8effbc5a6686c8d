import JsonDoc.Proofs.Members

/-!
# Histories of members

What happened to the members of an object is a list of events, the latest one first: a value was
stored under a key, or a key was erased.  A history tells the value under each key
(`History.latest?`), when a key arrived (`History.arrival`), and the keys in their order
(`History.keys`).
-/

namespace JsonDoc

/-- What happens to the members of an object. -/
inductive Event (α : Type) where
  | store (key : String) (x : α)
  | erase (key : String)
  deriving DecidableEq, Repr

/-- What happened to the members of an object, the latest event first. -/
abbrev History (α : Type) := List (Event α)

namespace History

variable {α : Type}

/-- The value that was stored last under a key and has not been erased since. -/
def latest? (key : String) : History α → Option α
  | [] => none
  | .store k x :: h => if k = key then some x else latest? key h
  | .erase k :: h => if k = key then none else latest? key h

/-- The count of events before a value was stored under the key for the last time while it was
absent. -/
def arrival (key : String) : History α → ℕ
  | [] => 0
  | .store k _ :: h => if k = key ∧ latest? key h = none then h.length else arrival key h
  | .erase _ :: h => arrival key h

/-- The keys that are there, in the order in which they arrived. -/
def arrivals : History α → List String
  | [] => []
  | .store key _ :: h => if (latest? key h).isSome then arrivals h else arrivals h ++ [key]
  | .erase key :: h => (arrivals h).erase key

/-- The keys that are there, in the order of their arrival or in their own. -/
def keys (order : MemberOrder) (h : History α) : List String :=
  match order with
  | .insertion => arrivals h
  | .byKey => (arrivals h).insertionSort (· ≤ ·)

/-- The history of values that are stored one after another. -/
def ofPairs (pairs : List (String × α)) : History α :=
  pairs.foldl (fun h (key, x) => .store key x :: h) []

variable {order : MemberOrder} {key k l : String} {x : α} {h : History α}

/-! ### The keys that are there -/

@[simp] theorem latest?_nil : latest? key ([] : History α) = none := rfl

@[simp] theorem latest?_store :
    latest? k (.store key x :: h) = if key = k then some x else latest? k h := rfl

@[simp] theorem latest?_erase :
    latest? k (.erase key :: h) = if key = k then none else latest? k h := rfl

theorem nodup_arrivals_and_mem_iff (h : History α) :
    (arrivals h).Nodup ∧ ∀ key, key ∈ arrivals h ↔ (latest? key h).isSome := by
  induction h with
  | nil => exact ⟨List.nodup_nil, fun key => by simp [arrivals]⟩
  | cons e h ih =>
    obtain ⟨hnodup, hmem⟩ := ih
    cases e with
    | store key x =>
      by_cases hkey : (latest? key h).isSome
      · rw [arrivals, if_pos hkey]
        refine ⟨hnodup, fun k => ?_⟩
        by_cases hk : key = k
        · subst hk
          simp [hmem, hkey]
        · simp [hmem, hk]
      · rw [arrivals, if_neg hkey]
        have hnew : key ∉ arrivals h := fun hin => hkey ((hmem key).mp hin)
        refine ⟨List.nodup_append.mpr ⟨hnodup, List.nodup_singleton key, by grind⟩, fun k => ?_⟩
        by_cases hk : key = k
        · simp [hk]
        · simp [hmem, hk, Ne.symm hk]
    | erase key =>
      refine ⟨hnodup.erase key, fun k => ?_⟩
      rw [arrivals, hnodup.mem_erase_iff, hmem]
      by_cases hk : key = k
      · simp [hk]
      · simp [hk, Ne.symm hk]

theorem nodup_arrivals (h : History α) : (arrivals h).Nodup := (nodup_arrivals_and_mem_iff h).1

theorem mem_arrivals_iff : key ∈ arrivals h ↔ (latest? key h).isSome :=
  (nodup_arrivals_and_mem_iff h).2 key

theorem perm_keys (order : MemberOrder) (h : History α) : (keys order h).Perm (arrivals h) := by
  cases order with
  | insertion => exact List.Perm.refl _
  | byKey => exact List.perm_insertionSort _ _

theorem nodup_keys (order : MemberOrder) (h : History α) : (keys order h).Nodup :=
  (perm_keys order h).nodup_iff.mpr h.nodup_arrivals

theorem mem_keys_iff : key ∈ keys order h ↔ (latest? key h).isSome :=
  (perm_keys order h).mem_iff.trans mem_arrivals_iff

/-! ### The order of the keys -/

/-- A key that is there arrived before now. -/
theorem arrival_lt_length (hkey : (latest? key h).isSome) : arrival key h < h.length := by
  induction h with
  | nil => cases hkey
  | cons e h ih =>
    cases e with
    | store k x =>
      rw [arrival]
      split
      case isTrue => simp
      case isFalse hnew =>
        have hold : (latest? key h).isSome := by
          by_cases hk : k = key
          · exact Option.isSome_iff_ne_none.mpr fun hnone => hnew ⟨hk, hnone⟩
          · simpa [hk] using hkey
        exact (ih hold).trans (Nat.lt_succ_self _)
    | erase k =>
      rw [latest?_erase] at hkey
      split at hkey
      case isTrue => cases hkey
      case isFalse => exact (ih hkey).trans (Nat.lt_succ_self _)

/-- A value that replaces another leaves every arrival as it was. -/
theorem arrival_store_of_isSome (hkey : (latest? key h).isSome) (k : String) :
    arrival k (.store key x :: h) = arrival k h := by
  refine if_neg ?_
  rintro ⟨rfl, hnone⟩
  rw [hnone] at hkey
  cases hkey

theorem arrival_store_of_ne (hk : key ≠ k) : arrival k (.store key x :: h) = arrival k h :=
  if_neg fun hnew => hk hnew.1

/-- A key that was absent arrives now. -/
theorem arrival_store_self (hkey : latest? key h = none) :
    arrival key (.store key x :: h) = h.length :=
  if_pos ⟨rfl, hkey⟩

/-- The keys stand in the order of their arrival. -/
theorem pairwise_arrivals (h : History α) :
    (arrivals h).Pairwise fun k l => arrival k h < arrival l h := by
  induction h with
  | nil => exact List.Pairwise.nil
  | cons e h ih =>
    cases e with
    | store key x =>
      by_cases hkey : (latest? key h).isSome
      · rw [arrivals, if_pos hkey]
        simpa only [arrival_store_of_isSome hkey] using ih
      · rw [arrivals, if_neg hkey]
        have hnone := Option.not_isSome_iff_eq_none.mp hkey
        have hne : ∀ k ∈ arrivals h, key ≠ k := by
          rintro k hk rfl
          exact hkey (mem_arrivals_iff.mp hk)
        refine List.pairwise_append.mpr ⟨?_, List.pairwise_singleton _ _, ?_⟩
        · refine ih.imp_of_mem fun hk hl hlt => ?_
          rwa [arrival_store_of_ne (hne _ hk), arrival_store_of_ne (hne _ hl)]
        · intro k hk l hl
          obtain rfl := List.mem_singleton.mp hl
          rw [arrival_store_of_ne (hne k hk), arrival_store_self hnone]
          exact arrival_lt_length (mem_arrivals_iff.mp hk)
    | erase key => exact ih.sublist List.erase_sublist

theorem pairwise_keys_byKey (h : History α) : (keys .byKey h).Pairwise (· < ·) := by
  have hle : (keys .byKey h).Pairwise (· ≤ ·) := List.pairwise_insertionSort _ _
  exact (hle.and (nodup_keys .byKey h)).imp fun h => lt_of_le_of_ne h.1 h.2

/-- Keys that are strictly in their own order are those of a history in which they are there. -/
theorem eq_keys_byKey {ks : List String} (hsorted : ks.Pairwise (· < ·))
    (hmem : ∀ key, key ∈ ks ↔ (latest? key h).isSome) : ks = keys .byKey h :=
  hsorted.eq_of_mem_iff (pairwise_keys_byKey h) fun key => (hmem key).trans mem_keys_iff.symm

end History

end JsonDoc
