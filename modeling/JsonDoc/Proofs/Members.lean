import Mathlib.Tactic
import Mathlib.Data.List.Sort
import Mathlib.Data.String.Basic
import JsonDoc.Members

/-!
# Keys and values of members

The members that are inserted one after another, told by what can be seen of them: each key has the
last value it was given, and the keys stand in the order of their first insertion, or in their own
(`Members.Collects`).  This leaves one possibility only (`collects_iff`).
-/

namespace JsonDoc.Members

variable {α : Type} {order : MemberOrder} {key k : String} {value : α}
  {entries pairs : List (String × α)} {m m' : Members α}

/-- No key is there twice, and keys in their own order are. -/
def WellKeyed (order : MemberOrder) (m : Members α) : Prop :=
  match order with
  | .insertion => m.keys.Nodup
  | .byKey => m.keys.Pairwise (· < ·)

instance (order : MemberOrder) (m : Members α) : Decidable (m.WellKeyed order) :=
  match order with
  | .insertion => inferInstanceAs (Decidable m.keys.Nodup)
  | .byKey => inferInstanceAs (Decidable (m.keys.Pairwise (· < ·)))

/-- The members are those that come of inserting pairs one after another. -/
structure Collects (order : MemberOrder) (pairs : List (String × α)) (m : Members α) : Prop where
  /-- The last value of a key counts. -/
  find?_eq : ∀ key, m.find? key = lookup? key pairs.reverse
  /-- The first place of a key counts. -/
  keys_eq : order = .insertion → m.keys = (pairs.map Prod.fst).eraseDups
  sorted : order = .byKey → m.keys.Pairwise (· < ·)

/-! ### Insertions -/

theorem mem_keys_insertEntry :
    k ∈ (insertEntry order key value entries).2.map Prod.fst ↔
      k = key ∨ k ∈ entries.map Prod.fst := by
  have h := lookup?_insertEntry order key k value entries
  rw [← not_iff_not, ← lookup?_eq_none_iff, h, not_or, ← lookup?_eq_none_iff]
  by_cases hk : key = k
  · simp [hk]
  · simp [hk, Ne.symm hk]

theorem pairwise_insertEntry_byKey (h : (entries.map Prod.fst).Pairwise (· < ·)) :
    ((insertEntry .byKey key value entries).2.map Prod.fst).Pairwise (· < ·) := by
  induction entries with
  | nil => simp [insertEntry]
  | cons e rest ih =>
    obtain ⟨l, x⟩ := e
    rw [List.map_cons, List.pairwise_cons] at h
    obtain ⟨hl, hrest⟩ := h
    rcases lt_trichotomy l key with hlt | rfl | hgt
    · rw [insertEntry, if_neg hlt.ne, if_neg fun h => lt_asymm hlt h.2, List.map_cons,
        List.pairwise_cons]
      refine ⟨fun k hk => ?_, ih hrest⟩
      rcases mem_keys_insertEntry.mp hk with rfl | hk
      · exact hlt
      · exact hl k hk
    · rw [insertEntry, if_pos rfl, List.map_cons, List.pairwise_cons]
      exact ⟨hl, hrest⟩
    · rw [insertEntry, if_neg hgt.ne', if_pos ⟨rfl, hgt⟩, List.map_cons, List.map_cons,
        List.pairwise_cons, List.pairwise_cons]
      refine ⟨fun k hk => ?_, hl, hrest⟩
      rcases List.mem_cons.mp hk with rfl | hk
      · exact hgt
      · exact hgt.trans (hl k hk)

theorem fst_insertEntry_byKey (h : (entries.map Prod.fst).Pairwise (· < ·)) :
    (insertEntry .byKey key value entries).1 = lookup? key entries := by
  induction entries with
  | nil => rfl
  | cons e rest ih =>
    obtain ⟨l, x⟩ := e
    rw [List.map_cons, List.pairwise_cons] at h
    by_cases hl : l = key
    · simp [insertEntry, lookup?, hl]
    · by_cases hlt : key < l
      · -- the keys that follow are larger still
        have hrest : lookup? key rest = none :=
          lookup?_eq_none_iff.mpr fun hmem => lt_asymm hlt (h.1 key hmem)
        simp [insertEntry, lookup?, hl, hlt, hrest]
      · simp [insertEntry, lookup?, hl, hlt, ih h.2]

theorem lookup?_eraseEntry_of_ne (hk : key ≠ k) :
    lookup? k (eraseEntry key entries).2 = lookup? k entries := by
  induction entries with
  | nil => rfl
  | cons e rest ih =>
    obtain ⟨l, x⟩ := e
    by_cases hl : l = key
    · subst hl
      simp [eraseEntry, lookup?, hk]
    · simp [eraseEntry, lookup?, hl, ih]

theorem wellKeyed_empty (order : MemberOrder) : (empty : Members α).WellKeyed order := by
  cases order <;> simp [WellKeyed, keys, empty]

theorem WellKeyed.insert (h : m.WellKeyed order) (key : String) (value : α) :
    (m.insert order key value).2.WellKeyed order := by
  cases order with
  | insertion =>
    simp only [WellKeyed, keys_insert_insertion] at h ⊢
    split
    case isTrue => exact h
    case isFalse hkey => exact List.nodup_append.mpr ⟨h, List.nodup_singleton key, by grind⟩
  | byKey => exact pairwise_insertEntry_byKey h

theorem WellKeyed.erase (h : m.WellKeyed order) (key : String) :
    (m.erase key).2.WellKeyed order := by
  cases order with
  | insertion =>
    rw [WellKeyed, keys_erase]
    exact List.Nodup.erase key h
  | byKey =>
    rw [WellKeyed, keys_erase]
    exact List.Pairwise.sublist List.erase_sublist h

theorem WellKeyed.nodup (h : m.WellKeyed order) : m.keys.Nodup := by
  cases order with
  | insertion => exact h
  | byKey => exact List.Pairwise.imp (fun h => ne_of_lt h) h

theorem WellKeyed.of_keys_eq (h : m.WellKeyed order) (hkeys : m'.keys = m.keys) :
    m'.WellKeyed order := by
  unfold WellKeyed at *
  rw [hkeys]
  exact h

theorem WellKeyed.tail {e : String × α} (h : WellKeyed order ⟨e :: entries⟩) :
    WellKeyed order ⟨entries⟩ := by
  cases order with
  | insertion => exact (List.nodup_cons.mp h).2
  | byKey => exact (List.pairwise_cons.mp h).2

/-- An insertion comes to the value that was there before. -/
theorem WellKeyed.fst_insert (h : m.WellKeyed order) (key : String) (value : α) :
    (m.insert order key value).1 = m.find? key := by
  cases order with
  | insertion => exact fst_insertEntry_insertion key value m.entries
  | byKey => exact fst_insertEntry_byKey h

/-- The value under a key after a key was erased. -/
theorem find?_erase (h : m.keys.Nodup) (key k : String) :
    (m.erase key).2.find? k = if key = k then none else m.find? k := by
  split
  case isTrue hk =>
    subst hk
    rw [find?_eq_none_iff, keys_erase, h.mem_erase_iff]
    exact fun hkey => hkey.1 rfl
  case isFalse hk => exact lookup?_eraseEntry_of_ne hk

theorem modify_eq_insertEntry (h : WellKeyed order ⟨entries⟩) {position : ℕ}
    (hkey : (entries.map Prod.fst)[position]? = some key) :
    (entries.modify position fun p => (p.1, value)) = (insertEntry order key value entries).2 := by
  induction entries generalizing position with
  | nil => simp at hkey
  | cons e rest ih =>
    obtain ⟨l, x⟩ := e
    cases position with
    | zero =>
      obtain rfl : l = key := by simpa using hkey
      simp [insertEntry]
    | succ position =>
      have hrest : (rest.map Prod.fst)[position]? = some key := by simpa using hkey
      have hmem : key ∈ rest.map Prod.fst := List.mem_of_getElem? hrest
      have hl : l ≠ key := by
        rintro rfl
        exact (List.nodup_cons.mp h.nodup).1 hmem
      have hlt : ¬ (order = .byKey ∧ key < l) := by
        rintro ⟨rfl, hlt⟩
        exact lt_asymm hlt ((List.pairwise_cons.mp h).1 key hmem)
      rw [insertEntry, if_neg hl, if_neg hlt, List.modify_succ_cons, ih h.tail hrest]

/-- To replace the value at a position is to store it under the key there. -/
theorem WellKeyed.setAt_eq_insert (h : m.WellKeyed order) {position : ℕ}
    (hkey : m.keys[position]? = some key) (value : α) :
    m.setAt position value = (m.insert order key value).2 :=
  congrArg Members.mk (modify_eq_insertEntry h hkey)

/-- There is nothing to replace behind the last key. -/
theorem setAt_eq_self {position : ℕ} (hkey : m.keys[position]? = none) (value : α) :
    m.setAt position value = m := by
  have hlength : m.entries.length ≤ position := by simpa [keys] using hkey
  exact congrArg Members.mk (List.modify_eq_self hlength)

theorem WellKeyed.setAt (h : m.WellKeyed order) (position : ℕ) (value : α) :
    (m.setAt position value).WellKeyed order := by
  cases hkey : m.keys[position]? with
  | none =>
    rw [setAt_eq_self hkey]
    exact h
  | some key =>
    rw [h.setAt_eq_insert hkey]
    exact h.insert key value

/-! ### The place of a new key -/

/-- Keys before and after one is stored: they stay as they are if it is among them; otherwise it is
put after all of them, or between the smaller and the larger ones. -/
def InsertsKey (order : MemberOrder) (key : String) (old new : List String) : Prop :=
  (key ∈ old → new = old) ∧
    (key ∉ old → ∃ before after, old = before ++ after ∧ new = before ++ key :: after ∧
      (order = .insertion → after = []) ∧
      (order = .byKey → (∀ k ∈ before, k < key) ∧ ∀ k ∈ after, key < k))

theorem InsertsKey.mem_iff {old new : List String} (h : InsertsKey order key old new) :
    k ∈ new ↔ k = key ∨ k ∈ old := by
  by_cases hkey : key ∈ old
  · rw [h.1 hkey]
    exact (or_iff_right_of_imp fun hk => hk ▸ hkey).symm
  · obtain ⟨before, after, rfl, rfl, -⟩ := h.2 hkey
    rw [List.mem_append, List.mem_cons, List.mem_append]
    exact or_left_comm

theorem InsertsKey.eq_append {old new : List String} (h : InsertsKey .insertion key old new)
    (hkey : key ∉ old) : new = old ++ [key] := by
  obtain ⟨before, after, rfl, rfl, hafter, -⟩ := h.2 hkey
  rw [hafter rfl, List.append_nil]

theorem insertsKey_insertEntry_byKey (h : (entries.map Prod.fst).Pairwise (· < ·)) :
    InsertsKey .byKey key (entries.map Prod.fst)
      ((insertEntry .byKey key value entries).2.map Prod.fst) := by
  induction entries with
  | nil =>
    exact ⟨fun h => absurd h List.not_mem_nil, fun _ => ⟨[], [], rfl, rfl, fun _ => rfl,
      fun _ => ⟨List.forall_mem_nil _, List.forall_mem_nil _⟩⟩⟩
  | cons e rest ih =>
    obtain ⟨l, x⟩ := e
    rw [List.map_cons, List.pairwise_cons] at h
    obtain ⟨hl, hrest⟩ := h
    rcases lt_trichotomy l key with hlt | rfl | hgt
    · obtain ⟨hmem, hnew⟩ := ih hrest
      have hkey : key ∈ l :: rest.map Prod.fst ↔ key ∈ rest.map Prod.fst := by
        rw [List.mem_cons, or_iff_right hlt.ne']
      rw [insertEntry, if_neg hlt.ne, if_neg fun h => lt_asymm hlt h.2, List.map_cons,
        List.map_cons]
      refine ⟨fun h => by rw [hmem (hkey.mp h)], fun h => ?_⟩
      obtain ⟨before, after, hold, hafter, -, hplace⟩ := hnew fun h' => h (hkey.mpr h')
      obtain ⟨hsmaller, hlarger⟩ := hplace rfl
      exact ⟨l :: before, after, by rw [hold]; rfl, by rw [hafter]; rfl, by simp,
        fun _ => ⟨List.forall_mem_cons.mpr ⟨hlt, hsmaller⟩, hlarger⟩⟩
    · rw [insertEntry, if_pos rfl]
      exact ⟨fun _ => rfl, fun h => absurd List.mem_cons_self h⟩
    · rw [insertEntry, if_neg hgt.ne', if_pos ⟨rfl, hgt⟩]
      have hlarger : ∀ k ∈ l :: rest.map Prod.fst, key < k :=
        List.forall_mem_cons.mpr ⟨hgt, fun k hk => hgt.trans (hl k hk)⟩
      exact ⟨fun h => absurd (hlarger key h) (lt_irrefl key),
        fun _ => ⟨[], _, rfl, rfl, by simp, fun _ => ⟨List.forall_mem_nil _, hlarger⟩⟩⟩

theorem WellKeyed.insertsKey_insert (h : m.WellKeyed order) (key : String) (value : α) :
    InsertsKey order key m.keys (m.insert order key value).2.keys := by
  cases order with
  | byKey => exact insertsKey_insertEntry_byKey h
  | insertion =>
    rw [keys_insert_insertion]
    refine ⟨fun hkey => if_pos hkey, fun hkey => ?_⟩
    rw [if_neg hkey]
    exact ⟨m.keys, [], (List.append_nil _).symm, rfl, fun _ => rfl, by simp⟩

theorem fst_findOrInsert (order : MemberOrder) (key : String) (default : α) (m : Members α) :
    (m.findOrInsert order key default).1 = (m.find? key).getD default := by
  unfold findOrInsert
  split
  case h_1 v hv => rw [hv, Option.getD_some]
  case h_2 hnone => rw [hnone, Option.getD_none]

/-- The value under a key that is stored where it was missing. -/
theorem find?_findOrInsert (order : MemberOrder) (key k : String) (default : α) (m : Members α) :
    (m.findOrInsert order key default).2.find? k =
      if key = k then some ((m.find? key).getD default) else m.find? k := by
  unfold findOrInsert
  split
  case h_1 v hv =>
    split
    case isTrue hk => rw [← hk, hv, Option.getD_some]
    case isFalse => rfl
  case h_2 hnone => rw [find?_insert, hnone, Option.getD_none]

theorem WellKeyed.findOrInsert (h : m.WellKeyed order) (key : String) (default : α) :
    (m.findOrInsert order key default).2.WellKeyed order := by
  unfold Members.findOrInsert
  split
  · exact h
  · exact h.insert key default

/-- A key that is stored where it was missing is not moved when its value is replaced. -/
theorem WellKeyed.insertsKey_findOrInsert (h : m.WellKeyed order) (key : String)
    (default value : α) :
    InsertsKey order key m.keys
      ((m.findOrInsert order key default).2.insert order key value).2.keys := by
  have hstored : key ∈ (m.findOrInsert order key default).2.keys := by
    by_contra hkey
    rw [← find?_eq_none_iff, find?_findOrInsert, if_pos rfl] at hkey
    cases hkey
  rw [((h.findOrInsert key default).insertsKey_insert key value).1 hstored]
  unfold Members.findOrInsert
  split
  case h_1 v hv =>
    refine ⟨fun _ => rfl, fun hkey => ?_⟩
    rw [← find?_eq_none_iff, hv] at hkey
    cases hkey
  case h_2 => exact h.insertsKey_insert key default

/-! ### Members of a list -/

theorem ofList_append_singleton (order : MemberOrder) (pairs : List (String × α))
    (p : String × α) :
    ofList order (pairs ++ [p]) = ((ofList order pairs).insert order p.1 p.2).2 := by
  rw [ofList, List.foldl_append]
  rfl

theorem wellKeyed_ofList (order : MemberOrder) (pairs : List (String × α)) :
    (ofList order pairs).WellKeyed order := by
  induction pairs using List.reverseRecOn with
  | nil => exact wellKeyed_empty order
  | append_singleton pairs p ih =>
    rw [ofList_append_singleton]
    exact ih.insert p.1 p.2

theorem collects_ofList (order : MemberOrder) (pairs : List (String × α)) :
    Collects order pairs (ofList order pairs) where
  find?_eq key := by
    induction pairs using List.reverseRecOn with
    | nil => rfl
    | append_singleton pairs p ih =>
      rw [ofList_append_singleton, find?_insert, ih, List.reverse_append, List.reverse_singleton,
        List.singleton_append, lookup?]
  keys_eq := by
    rintro rfl
    induction pairs using List.reverseRecOn with
    | nil => rfl
    | append_singleton pairs p ih =>
      rw [ofList_append_singleton, keys_insert_insertion, ih, List.map_append,
        List.eraseDups_append]
      by_cases hp : p.1 ∈ pairs.map Prod.fst
      · simp [List.mem_eraseDups, hp, List.removeAll]
      · simp [List.mem_eraseDups, hp, List.removeAll, List.eraseDups_cons]
  sorted := by
    rintro rfl
    exact wellKeyed_ofList .byKey pairs

theorem snd_of_mem_insertEntry {p : String × α}
    (h : p ∈ (insertEntry order key value entries).2) : p.2 = value ∨ p ∈ entries := by
  induction entries with
  | nil =>
    left
    rw [List.mem_singleton.mp h]
  | cons e rest ih =>
    obtain ⟨k, x⟩ := e
    unfold insertEntry at h
    split at h
    · rcases List.mem_cons.mp h with rfl | h
      · exact Or.inl rfl
      · exact Or.inr (List.mem_cons_of_mem _ h)
    · split at h
      · rcases List.mem_cons.mp h with rfl | h
        · exact Or.inl rfl
        · exact Or.inr h
      · rcases List.mem_cons.mp h with rfl | h
        · exact Or.inr List.mem_cons_self
        · exact (ih h).imp id (List.mem_cons_of_mem _)

/-- No value comes of a list that was not in it. -/
theorem forall_mem_ofList {P : α → Prop} (h : ∀ p ∈ pairs, P p.2) :
    ∀ p ∈ (ofList order pairs).entries, P p.2 := by
  induction pairs using List.reverseRecOn with
  | nil => nofun
  | append_singleton pairs q ih =>
    intro p hp
    rw [ofList_append_singleton] at hp
    rcases snd_of_mem_insertEntry hp with hvalue | hp
    · rw [hvalue]
      exact h q (by simp)
    · exact ih (fun p hp => h p (List.mem_append_left _ hp)) p hp

/-- Members without repeated keys are told by their keys and the values under them. -/
theorem eq_of_keys_eq (hkeys : m.keys = m'.keys) (hnodup : m.keys.Nodup)
    (hfind : ∀ key, m.find? key = m'.find? key) : m = m' := by
  obtain ⟨entries⟩ := m
  obtain ⟨entries'⟩ := m'
  congr 1
  simp only [keys, find?] at *
  induction entries generalizing entries' with
  | nil => exact (List.map_eq_nil_iff.mp hkeys.symm).symm
  | cons e rest ih =>
    obtain ⟨k, x⟩ := e
    rcases entries' with _ | ⟨⟨k', x'⟩, rest'⟩
    · cases hkeys
    simp only [List.map_cons, List.cons.injEq, List.nodup_cons] at hkeys hnodup
    obtain ⟨rfl, hkeys⟩ := hkeys
    have hx := hfind k
    simp only [lookup?, if_true, Option.some.injEq] at hx
    have hrest : rest = rest' := by
      refine ih hnodup.2 rest' hkeys fun key => ?_
      by_cases hk : k = key
      · subst hk
        rw [lookup?_eq_none_iff.mpr hnodup.1, lookup?_eq_none_iff.mpr (hkeys ▸ hnodup.1)]
      · simpa only [lookup?, hk, if_false] using hfind key
    rw [hx, hrest]

/-- The members that come of inserting pairs are those of the list. -/
theorem collects_iff : Collects order pairs m ↔ m = ofList order pairs := by
  constructor
  · intro h
    have h' := collects_ofList order pairs
    have hfind : ∀ key, (ofList order pairs).find? key = m.find? key := fun key =>
      (h'.find?_eq key).trans (h.find?_eq key).symm
    refine (eq_of_keys_eq ?_ (wellKeyed_ofList order pairs).nodup hfind).symm
    cases order with
    | insertion => exact (h'.keys_eq rfl).trans (h.keys_eq rfl).symm
    | byKey =>
      refine (h'.sorted rfl).eq_of_mem_iff (h.sorted rfl) fun key => ?_
      rw [← not_iff_not, ← find?_eq_none_iff, ← find?_eq_none_iff, hfind]
  · rintro rfl
    exact collects_ofList order pairs

theorem mem_of_find? (h : m.find? key = some value) : (key, value) ∈ m.entries := by
  obtain ⟨entries⟩ := m
  rw [find?] at h
  induction entries with
  | nil => cases h
  | cons e rest ih =>
    rw [lookup?] at h
    split at h
    case isTrue hkey =>
      cases h
      rw [← hkey]
      exact List.mem_cons_self
    case isFalse => exact List.mem_cons_of_mem _ (ih h)

theorem lookup?_eq_some_iff (h : (entries.map Prod.fst).Nodup) :
    lookup? key entries = some value ↔ (key, value) ∈ entries := by
  induction entries with
  | nil => simp [lookup?]
  | cons e rest ih =>
    obtain ⟨k, x⟩ := e
    rw [List.map_cons, List.nodup_cons] at h
    rw [lookup?, List.mem_cons, Prod.mk.injEq]
    by_cases hk : k = key
    · subst hk
      have hmem : (k, value) ∉ rest := fun hmem => h.1 (List.mem_map.mpr ⟨_, hmem, rfl⟩)
      simp [hmem, eq_comm]
    · rw [if_neg hk, ih h.2]
      simp [Ne.symm hk]

theorem eraseDups_of_nodup {keys : List String} (h : keys.Nodup) : keys.eraseDups = keys := by
  induction keys with
  | nil => rfl
  | cons k keys ih =>
    obtain ⟨hk, hkeys⟩ := List.nodup_cons.mp h
    have hfilter : keys.filter (fun l => !l == k) = keys :=
      List.filter_eq_self.mpr fun l hl => by
        have hne : l ≠ k := fun h => hk (h ▸ hl)
        simp [hne]
    rw [List.eraseDups_cons, hfilter, ih hkeys]

/-- Members that are well keyed come of inserting their own entries. -/
theorem collects_entries (h : m.WellKeyed order) : Collects order m.entries m where
  find?_eq key := by
    have hrev : (m.entries.reverse.map Prod.fst).Nodup := by
      rw [List.map_reverse, List.nodup_reverse]
      exact h.nodup
    refine Option.ext fun v => ?_
    rw [find?, lookup?_eq_some_iff h.nodup, lookup?_eq_some_iff hrev, List.mem_reverse]
  keys_eq := fun _ => (eraseDups_of_nodup h.nodup).symm
  sorted := by
    rintro rfl
    exact h

end JsonDoc.Members
