import JsonDoc.Proofs.Members

/-!
# Mappings

A mapping holds values under keys, no key twice, and its entries stand in an order: that of their
first insertion or that of their keys.  `Mapping.IsLawful` says what is asked of its operations.
Members are such a mapping (`Members.isLawful_mapping`), and any two do the same to the same entries
(`Mapping.run_eq`), so that nothing but these laws is seen of the one that is used.
-/

namespace JsonDoc

/-- The operations on a mapping from keys to values. -/
structure Mapping (μ α : Type) where
  empty : μ
  /-- The entries in their order. -/
  entries : μ → List (String × α)
  size : μ → ℕ
  find? : String → μ → Option α
  /-- Stores a value under a key, for the value that was there before. -/
  insert : String → α → μ → Option α × μ
  /-- Removes the entry of a key, for its value. -/
  erase : String → μ → Option α × μ
  /-- The value under a key, which is stored first if there is none. -/
  findOrInsert : String → α → μ → α × μ
  /-- Replaces the value of the entry at a position. -/
  setAt : ℕ → α → μ → μ

namespace Mapping

variable {μ ν α : Type} {M : Mapping μ α} {N : Mapping ν α} {order : MemberOrder} {m : μ} {n : ν}

/-- The keys in their order. -/
def keys (M : Mapping μ α) (m : μ) : List String := (M.entries m).map Prod.fst

/-- What is asked of the operations on a mapping. -/
structure IsLawful (M : Mapping μ α) (order : MemberOrder) : Prop where
  wellKeyed : ∀ m, Members.WellKeyed order ⟨M.entries m⟩
  entries_empty : M.entries M.empty = []
  size_eq : ∀ m, M.size m = (M.entries m).length
  find?_eq_some_iff : ∀ {m key v}, M.find? key m = some v ↔ (key, v) ∈ M.entries m
  fst_insert : ∀ m key v, (M.insert key v m).1 = M.find? key m
  find?_insert : ∀ m key v k,
    M.find? k (M.insert key v m).2 = if key = k then some v else M.find? k m
  /-- A key that is there keeps its place. -/
  insertsKey : ∀ m key v, Members.InsertsKey order key (M.keys m) (M.keys (M.insert key v m).2)
  fst_erase : ∀ m key, (M.erase key m).1 = M.find? key m
  /-- The entries that are left keep their order. -/
  entries_erase : ∀ m key, M.entries (M.erase key m).2 = (M.entries m).filter (·.1 ≠ key)
  fst_findOrInsert : ∀ m key default,
    (M.findOrInsert key default m).1 = (M.find? key m).getD default
  entries_findOrInsert : ∀ m key default, M.entries (M.findOrInsert key default m).2 =
    if M.find? key m = none then M.entries (M.insert key default m).2 else M.entries m
  entries_setAt : ∀ m position v,
    M.entries (M.setAt position v m) = (M.entries m).modify position fun p => (p.1, v)

/-! ### Calls -/

/-- A call of an operation. -/
inductive Call (α : Type) where
  | find (key : String)
  | insert (key : String) (value : α)
  | erase (key : String)
  | findOrInsert (key : String) (default : α)
  | setAt (position : ℕ) (value : α)
  | clear

/-- The reply to a call, and the mapping after it. -/
def call (M : Mapping μ α) (m : μ) : Call α → Option α × μ
  | .find key => (M.find? key m, m)
  | .insert key value => M.insert key value m
  | .erase key => M.erase key m
  | .findOrInsert key default =>
    let (value, m) := M.findOrInsert key default m
    (some value, m)
  | .setAt position value => (none, M.setAt position value m)
  | .clear => (none, M.empty)

/-- The replies to calls one after another, and the mapping after them. -/
def run (M : Mapping μ α) (m : μ) : List (Call α) → List (Option α) × μ
  | [] => ([], m)
  | c :: calls =>
    let (reply, m) := M.call m c
    let (replies, m) := run M m calls
    (reply :: replies, m)

/-! ### The same entries -/

/-- What is found is told by the entries. -/
theorem IsLawful.find?_eq (hM : M.IsLawful order) (m : μ) (key : String) :
    M.find? key m = Members.find? key ⟨M.entries m⟩ := by
  refine Option.ext fun v => ?_
  rw [hM.find?_eq_some_iff, Members.find?, Members.lookup?_eq_some_iff (hM.wellKeyed m).nodup]

theorem find?_eq_of_entries_eq (hM : M.IsLawful order) (hN : N.IsLawful order)
    (h : M.entries m = N.entries n) (key : String) : M.find? key m = N.find? key n := by
  rw [hM.find?_eq, hN.find?_eq, h]

/-- Keys are put into the same place. -/
theorem keys_insert_eq (hM : M.IsLawful order) (hN : N.IsLawful order) (h : M.keys m = N.keys n)
    (key : String) (v w : α) : M.keys (M.insert key v m).2 = N.keys (N.insert key w n).2 := by
  have hnew := hM.insertsKey m key v
  have hnew' := hN.insertsKey n key w
  rw [h] at hnew
  cases order with
  | insertion =>
    by_cases hkey : key ∈ N.keys n
    · rw [hnew.1 hkey, hnew'.1 hkey]
    · rw [hnew.eq_append hkey, hnew'.eq_append hkey]
  | byKey =>
    refine (hM.wellKeyed _).eq_of_mem_iff (hN.wellKeyed _) fun k => ?_
    exact hnew.mem_iff.trans hnew'.mem_iff.symm

theorem entries_insert_eq (hM : M.IsLawful order) (hN : N.IsLawful order)
    (h : M.entries m = N.entries n) (key : String) (v : α) :
    M.entries (M.insert key v m).2 = N.entries (N.insert key v n).2 := by
  have hkeys : M.keys m = N.keys n := congrArg (List.map Prod.fst) h
  have hfind : ∀ k, Members.find? k ⟨M.entries (M.insert key v m).2⟩ =
      Members.find? k ⟨N.entries (N.insert key v n).2⟩ := by
    intro k
    rw [← hM.find?_eq, ← hN.find?_eq, hM.find?_insert, hN.find?_insert,
      find?_eq_of_entries_eq hM hN h]
  exact congrArg Members.entries (Members.eq_of_keys_eq (keys_insert_eq hM hN hkeys key v v)
    (hM.wellKeyed _).nodup hfind)

/-- A call has the same reply of any two mappings with the same entries, and leaves the same
entries. -/
theorem call_eq (hM : M.IsLawful order) (hN : N.IsLawful order) (h : M.entries m = N.entries n)
    (c : Call α) :
    (M.call m c).1 = (N.call n c).1 ∧
      M.entries (M.call m c).2 = N.entries (N.call n c).2 := by
  have hfind := find?_eq_of_entries_eq hM hN h
  cases c with
  | find key => exact ⟨hfind key, h⟩
  | insert key v =>
    refine ⟨?_, entries_insert_eq hM hN h key v⟩
    exact (hM.fst_insert m key v).trans ((hfind key).trans (hN.fst_insert n key v).symm)
  | erase key =>
    refine ⟨(hM.fst_erase m key).trans ((hfind key).trans (hN.fst_erase n key).symm), ?_⟩
    exact (hM.entries_erase m key).trans (by rw [h, ← hN.entries_erase]; rfl)
  | findOrInsert key default =>
    constructor
    · exact congrArg some ((hM.fst_findOrInsert m key default).trans
        (by rw [hfind, ← hN.fst_findOrInsert]))
    · refine (hM.entries_findOrInsert m key default).trans ?_
      rw [hfind, h, entries_insert_eq hM hN h]
      exact (hN.entries_findOrInsert n key default).symm
  | setAt position v =>
    exact ⟨rfl, (hM.entries_setAt m position v).trans (by rw [h, ← hN.entries_setAt]; rfl)⟩
  | clear => exact ⟨rfl, hM.entries_empty.trans hN.entries_empty.symm⟩

/-- So do calls one after another: two mappings that keep the laws are not told apart. -/
theorem run_eq (hM : M.IsLawful order) (hN : N.IsLawful order) (h : M.entries m = N.entries n)
    (calls : List (Call α)) :
    (M.run m calls).1 = (N.run n calls).1 ∧
      M.entries (M.run m calls).2 = N.entries (N.run n calls).2 := by
  induction calls generalizing m n with
  | nil => exact ⟨rfl, h⟩
  | cons c calls ih =>
    obtain ⟨hreply, hentries⟩ := call_eq hM hN h c
    obtain ⟨hreplies, hrest⟩ := ih hentries
    exact ⟨congrArg₂ List.cons hreply hreplies, hrest⟩

end Mapping

/-! ### Members -/

namespace Members

variable {α : Type} {order : MemberOrder}

/-- The entries behind an erased one stay, and so do those before it. -/
theorem entries_erase {m : Members α} (h : m.keys.Nodup) (key : String) :
    (m.erase key).2.entries = m.entries.filter (·.1 ≠ key) := by
  obtain ⟨entries⟩ := m
  induction entries with
  | nil => rfl
  | cons e rest ih =>
    obtain ⟨k, x⟩ := e
    obtain ⟨hk, hrest⟩ := List.nodup_cons.mp h
    change (eraseEntry key ((k, x) :: rest)).2 = _
    by_cases hkey : k = key
    · subst hkey
      have hne : ∀ p ∈ rest, p.1 ≠ k := fun p hp heq => hk (heq ▸ List.mem_map.mpr ⟨p, hp, rfl⟩)
      rw [eraseEntry, if_pos rfl, List.filter_cons_of_neg (by simp), List.filter_eq_self.mpr]
      simpa using hne
    · rw [eraseEntry, if_neg hkey, List.filter_cons_of_pos (by simpa using hkey)]
      exact congrArg _ (ih hrest)

/-- Members without repeated keys, in their order. -/
def mapping (order : MemberOrder) : Mapping { m : Members α // m.WellKeyed order } α where
  empty := ⟨empty, wellKeyed_empty order⟩
  entries m := m.1.entries
  size m := m.1.size
  find? key m := m.1.find? key
  insert key v m := ((m.1.insert order key v).1, ⟨_, m.2.insert key v⟩)
  erase key m := ((m.1.erase key).1, ⟨_, m.2.erase key⟩)
  findOrInsert key default m :=
    ((m.1.findOrInsert order key default).1, ⟨_, m.2.findOrInsert key default⟩)
  setAt position v m := ⟨_, m.2.setAt position v⟩

/-- Members are a mapping in either order. -/
theorem isLawful_mapping (order : MemberOrder) :
    (mapping order : Mapping { m : Members α // m.WellKeyed order } α).IsLawful order where
  wellKeyed m := m.2
  entries_empty := rfl
  size_eq _ := rfl
  find?_eq_some_iff {m _ _} := lookup?_eq_some_iff m.2.nodup
  fst_insert m := m.2.fst_insert
  find?_insert m key v k := find?_insert order key k v m.1
  insertsKey m := m.2.insertsKey_insert
  fst_erase m key := fst_erase key m.1
  entries_erase m := entries_erase m.2.nodup
  fst_findOrInsert m key default := fst_findOrInsert order key default m.1
  entries_findOrInsert m key default := by
    change (m.1.findOrInsert order key default).2.entries = _
    rw [findOrInsert]
    split
    case h_1 v hv => exact (if_neg fun hnone => by cases hv.symm.trans hnone).symm
    case h_2 hnone => exact (if_pos hnone).symm
  entries_setAt _ _ _ := rfl

end Members

end JsonDoc
