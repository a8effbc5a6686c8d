import JsonDoc.Proofs.Value.Keyed

/-!
# Assigning along a path

An assignment along a path makes what is missing on it and replaces what it leads to.  All that
other paths lead to stays as it was (`Edit.assigns_along`).  What is new beside the path are only the
nulls by which arrays on it had to grow, and a new key goes behind the others or to its place among
them.
-/

namespace JsonDoc

namespace Value

variable {order : MemberOrder} {path q : List PathStep} {s t : PathStep} {v w x y z : Value}

/-! ### Reading along a path -/

/-- The path leads to the part, step by step. -/
def Reads (v : Value) (path : List PathStep) (x : Value) : Prop :=
  v.follow (fun _ e => e) path = .ok x

theorem reads_nil_iff : v.Reads [] x ↔ v = x := by simp [Reads]

theorem reads_cons_iff : v.Reads (s :: path) x ↔ ∃ y, v.part s = .ok y ∧ y.Reads path x := by
  unfold Reads
  rw [follow_cons]
  cases v.part s with
  | error e => simp [Except.mapError, Except.bind]
  | ok y => simp [Except.mapError, Except.bind]

/-- The part that a step leads to, or null where there is none. -/
def partOrNull (v : Value) (s : PathStep) : Value := (v.part s).toOption.getD null

theorem partOrNull_of_part (h : v.part s = .ok x) : v.partOrNull s = x := by
  rw [partOrNull, h]
  rfl

theorem partOrNull_of_error {e : Error} (h : v.part s = .error e) : v.partOrNull s = null := by
  rw [partOrNull, h]
  rfl

theorem partOrNull_eq_getD {x? : Option Value} (h : ∀ z, v.part s = .ok z ↔ x? = some z) :
    v.partOrNull s = x?.getD null := by
  cases hx : v.part s with
  | ok z => rw [partOrNull_of_part hx, (h z).mp hx, Option.getD_some]
  | error e =>
    have hnone : x? = none := by
      refine Option.eq_none_iff_forall_ne_some.mpr fun z hz => ?_
      rw [(h z).mpr hz] at hx
      cases hx
    rw [partOrNull_of_error hx, hnone, Option.getD_none]

theorem part_null_ne : null.part s ≠ .ok x := by
  cases s <;> nofun

/-- Null has no parts. -/
theorem reads_null_iff : null.Reads path x ↔ path = [] ∧ x = null := by
  cases path with
  | nil => simp [reads_nil_iff, eq_comm]
  | cons s path =>
    rw [reads_cons_iff]
    exact iff_of_false (fun ⟨_, h, _⟩ => part_null_ne h) nofun

/-- What is read through a part is read through null if the part is missing. -/
theorem reads_partOrNull_iff : (v.partOrNull s).Reads path x ↔
    v.Reads (s :: path) x ∨ (∃ e, v.part s = .error e) ∧ path = [] ∧ x = null := by
  rw [reads_cons_iff]
  cases hv : v.part s with
  | ok y => simp [partOrNull_of_part hv]
  | error e => simp [partOrNull_of_error hv, reads_null_iff]

theorem Keyed.partOrNull (h : v.Keyed order) (s : PathStep) : (v.partOrNull s).Keyed order := by
  cases hv : v.part s with
  | ok y => exact partOrNull_of_part hv ▸ h.part hv
  | error e => exact partOrNull_of_error hv ▸ trivial

/-- The keys of the object that a path leads to, if there is one. -/
def keysAt (v : Value) (path : List PathStep) : List String :=
  match v.follow (fun _ e => e) path with
  | .ok (object m) => m.keys
  | _ => []

theorem keysAt_cons : v.keysAt (s :: path) = (v.partOrNull s).keysAt path := by
  unfold keysAt
  rw [follow_cons]
  cases hv : v.part s with
  | ok y =>
    rw [partOrNull_of_part hv]
    rfl
  | error e =>
    rw [partOrNull_of_error hv]
    cases path with
    | nil => rfl
    | cons t path =>
      rw [follow_cons]
      cases t <;> rfl

/-! ### One step -/

/-- The second step leads to where the first makes an array grow: before it, and not before the
former end of the array. -/
def IsGap (v : Value) (s t : PathStep) : Prop :=
  ∃ i j, s = .index i ∧ t = .index j ∧ j < i ∧ ∀ xs, v = array xs → xs.length ≤ j

/-- The second value is the first with another at a step, and null in the gaps before it. -/
structure Sets (order : MemberOrder) (s : PathStep) (y v w : Value) : Prop where
  part_eq : w.part s = .ok y
  part_iff : ∀ t z, t ≠ s → (w.part t = .ok z ↔ v.part t = .ok z ∨ v.IsGap s t ∧ z = null)
  keys : ∀ key, s = .key key →
    ∃ m, w = object m ∧ Members.InsertsKey order key (v.keysAt []) m.keys

section Arrays

variable {xs : List Value} {i : ℕ}

theorem eq_of_orArray (h : v.orArray = array xs) : v = array xs ∨ v = null ∧ xs = [] := by
  cases v with
  | null => exact Or.inr ⟨rfl, (array.inj h).symm⟩
  | array ys => exact Or.inl h
  | _ => cases h

theorem part_iff_of_orArray (h : v.orArray = array xs) :
    v.part t = .ok z ↔ ∃ j, t = .index j ∧ xs[j]? = some z := by
  rcases eq_of_orArray h with rfl | ⟨rfl, rfl⟩
  · exact part_array_iff
  · simp [part_null_ne]

theorem isGap_iff_of_orArray (h : v.orArray = array xs) :
    v.IsGap (.index i) t ↔ ∃ j, t = .index j ∧ j < i ∧ xs.length ≤ j := by
  rcases eq_of_orArray h with rfl | ⟨rfl, rfl⟩ <;> simp [IsGap]

/-- An element that is there or is made is set. -/
theorem sets_array (h : v.orArray = array xs) (y : Value) :
    Sets order (.index i) y v (array ((Elements.extendTo (i + 1) null xs).set i y)) where
  part_eq := by
    have hi : i < (Elements.extendTo (i + 1) null xs).length := by
      rw [Elements.length_extendTo]
      omega
    exact part_array_iff.mpr ⟨i, rfl, List.getElem?_set_self hi⟩
  part_iff t z ht := by
    rw [part_array_iff, part_iff_of_orArray h, isGap_iff_of_orArray h]
    cases t with
    | key k => simp
    | index j =>
      have hne : i ≠ j := fun hij => ht (by rw [hij])
      simp only [PathStep.index.injEq, exists_eq_left', List.getElem?_set_ne hne,
        Elements.getElem?_extendTo]
      rcases lt_or_ge j xs.length with hj | hj
      · rw [if_pos hj, or_iff_left fun hgap => not_lt.mpr hgap.1.2 hj]
      · rw [if_neg (not_lt.mpr hj), List.getElem?_eq_none hj]
        by_cases hi : j < i
        · simp [hi, hj, hi.le, eq_comm]
        · rw [if_neg (by omega)]
          simp [hi]
  keys := nofun

end Arrays

section Objects

variable {m : Members Value} {key : String}

theorem eq_of_orObject (h : v.orObject = object m) : v = object m ∨ v = null ∧ m = .empty := by
  cases v with
  | null => exact Or.inr ⟨rfl, (object.inj h).symm⟩
  | object n => exact Or.inl h
  | _ => cases h

theorem part_iff_of_orObject (h : v.orObject = object m) :
    v.part t = .ok z ↔ ∃ k, t = .key k ∧ m.find? k = some z := by
  rcases eq_of_orObject h with rfl | ⟨rfl, rfl⟩
  · exact part_object_iff
  · simp [part_null_ne, Members.find?, Members.empty, Members.lookup?]

theorem keysAt_nil_of_orObject (h : v.orObject = object m) : v.keysAt [] = m.keys := by
  rcases eq_of_orObject h with rfl | ⟨rfl, rfl⟩ <;> rfl

theorem Keyed.wellKeyed_of_orObject (hv : v.Keyed order) (h : v.orObject = object m) :
    m.WellKeyed order := by
  rcases eq_of_orObject h with rfl | ⟨rfl, rfl⟩
  · exact (keyed_object_iff.mp hv).1
  · exact Members.wellKeyed_empty order

/-- The value of a member that is there or is made is set. -/
theorem sets_object (hv : v.Keyed order) (h : v.orObject = object m) (y : Value) :
    Sets order (.key key) y v
      (object ((m.findOrInsert order key null).2.insert order key y).2) where
  part_eq := part_object_iff.mpr ⟨key, rfl, by rw [Members.find?_insert, if_pos rfl]⟩
  part_iff t z ht := by
    have hgap : ¬ v.IsGap (.key key) t := by
      rintro ⟨i, -, hi, -⟩
      cases hi
    rw [part_object_iff, part_iff_of_orObject h, or_iff_left fun h => hgap h.1]
    cases t with
    | index j => simp
    | key k =>
      have hne : key ≠ k := fun hk => ht (by rw [hk])
      simp only [PathStep.key.injEq, exists_eq_left', Members.find?_insert, if_neg hne,
        Members.find?_findOrInsert]
  keys := by
    rintro _ ⟨⟩
    refine ⟨_, rfl, ?_⟩
    rw [keysAt_nil_of_orObject h]
    exact (hv.wellKeyed_of_orObject h).insertsKey_findOrInsert key null y

end Objects

/-! ### A whole path -/

/-- The second path leads to a null by which an array on the first has to grow. -/
def Fills (v : Value) (path q : List PathStep) : Prop :=
  ∃ p i rest j, path = p ++ .index i :: rest ∧ q = p ++ [.index j] ∧ j < i ∧
    ∀ xs, v.Reads p (array xs) → xs.length ≤ j

theorem fills_cons_iff : v.Fills (s :: path) q ↔
    (∃ t, q = [t] ∧ v.IsGap s t) ∨ ∃ q', q = s :: q' ∧ (v.partOrNull s).Fills path q' := by
  constructor
  · rintro ⟨p, i, rest, j, hpath, rfl, hlt, hlength⟩
    cases p with
    | nil =>
      cases hpath
      exact Or.inl ⟨.index j, rfl, i, j, rfl, rfl, hlt,
        fun xs hv => hlength xs (reads_nil_iff.mpr hv)⟩
    | cons s' p =>
      cases hpath
      refine Or.inr ⟨_, rfl, p, i, rest, j, rfl, rfl, hlt, fun xs hxs => ?_⟩
      rcases reads_partOrNull_iff.mp hxs with hxs | ⟨-, -, hnull⟩
      · exact hlength xs hxs
      · cases hnull
  · rintro (⟨t, rfl, i, j, rfl, rfl, hlt, hlength⟩ | ⟨q', rfl, hfills⟩)
    · exact ⟨[], i, path, j, rfl, rfl, hlt, fun xs hv => hlength xs (reads_nil_iff.mp hv)⟩
    · obtain ⟨p, i, rest, j, rfl, rfl, hlt, hlength⟩ := hfills
      exact ⟨s :: p, i, rest, j, rfl, rfl, hlt,
        fun xs hxs => hlength xs (reads_partOrNull_iff.mpr (Or.inl hxs))⟩

/-- The second value is the first with another assigned along a path. -/
structure Assigns (order : MemberOrder) (path : List PathStep) (x v w : Value) : Prop where
  /-- The path leads to the value that is assigned. -/
  assigned : w.Reads path x
  /-- Paths that leave it lead to what they led to. -/
  kept : ∀ q z, ¬ q <+: path → ¬ path <+: q → v.Reads q z → w.Reads q z
  /-- Other paths lead somewhere only on it, behind it, where they did before, and to nulls by which
  an array has grown. -/
  readable : ∀ q z, w.Reads q z →
    q <+: path ∨ (∃ r, q = path ++ r ∧ x.Reads r z) ∨ v.Reads q z ∨ v.Fills path q ∧ z = null
  fills : ∀ q, v.Fills path q → w.Reads q null
  /-- The members on it keep their order, and a new key goes where it belongs. -/
  keys : ∀ p key rest, path = p ++ .key key :: rest →
    ∃ m, w.Reads p (object m) ∧ Members.InsertsKey order key (v.keysAt p) m.keys

theorem assigns_nil (order : MemberOrder) (x v : Value) : Assigns order [] x v x where
  assigned := reads_nil_iff.mpr rfl
  kept q z _ h := absurd List.nil_prefix h
  readable q z h := Or.inr (Or.inl ⟨q, rfl, h⟩)
  fills q := by
    rintro ⟨p, i, rest, j, hpath, -⟩
    exact absurd hpath.symm (by simp)
  keys p key rest hpath := absurd hpath.symm (by simp)

/-- What is assigned along a path in a part is assigned behind the step to the part. -/
theorem Sets.assigns (hs : Sets order s y v w) (h : Assigns order path x (v.partOrNull s) y) :
    Assigns order (s :: path) x v w where
  assigned := reads_cons_iff.mpr ⟨y, hs.part_eq, h.assigned⟩
  kept q z hq hpath hz := by
    cases q with
    | nil => exact absurd List.nil_prefix hq
    | cons t q =>
      obtain ⟨u, hu, hread⟩ := reads_cons_iff.mp hz
      by_cases ht : t = s
      · subst ht
        have hq' : ¬ q <+: path := fun h => hq (List.cons_prefix_cons.mpr ⟨rfl, h⟩)
        have hpath' : ¬ path <+: q := fun h => hpath (List.cons_prefix_cons.mpr ⟨rfl, h⟩)
        rw [partOrNull_of_part hu] at h
        exact reads_cons_iff.mpr ⟨y, hs.part_eq, h.kept q z hq' hpath' hread⟩
      · exact reads_cons_iff.mpr ⟨u, (hs.part_iff t u ht).mpr (Or.inl hu), hread⟩
  readable q z hz := by
    cases q with
    | nil => exact Or.inl List.nil_prefix
    | cons t q =>
      obtain ⟨u, hu, hread⟩ := reads_cons_iff.mp hz
      by_cases ht : t = s
      · subst ht
        cases hs.part_eq.symm.trans hu
        rcases h.readable q z hread with hq | ⟨r, rfl, hr⟩ | hold | ⟨hfills, hnull⟩
        · exact Or.inl (List.cons_prefix_cons.mpr ⟨rfl, hq⟩)
        · exact Or.inr (Or.inl ⟨r, rfl, hr⟩)
        · rcases reads_partOrNull_iff.mp hold with hold | ⟨-, rfl, -⟩
          · exact Or.inr (Or.inr (Or.inl hold))
          · exact Or.inl (List.cons_prefix_cons.mpr ⟨rfl, List.nil_prefix⟩)
        · exact Or.inr (Or.inr (Or.inr ⟨fills_cons_iff.mpr (Or.inr ⟨q, rfl, hfills⟩), hnull⟩))
      · right
        right
        rcases (hs.part_iff t u ht).mp hu with hold | ⟨hgap, rfl⟩
        · exact Or.inl (reads_cons_iff.mpr ⟨u, hold, hread⟩)
        · obtain ⟨rfl, hnull⟩ := reads_null_iff.mp hread
          exact Or.inr ⟨fills_cons_iff.mpr (Or.inl ⟨t, rfl, hgap⟩), hnull⟩
  fills q hq := by
    rcases fills_cons_iff.mp hq with ⟨t, rfl, hgap⟩ | ⟨q, rfl, hfills⟩
    · have ht : t ≠ s := by
        obtain ⟨i, j, rfl, rfl, hlt, -⟩ := hgap
        rintro ⟨⟩
        exact lt_irrefl _ hlt
      have hpart := (hs.part_iff t null ht).mpr (Or.inr ⟨hgap, rfl⟩)
      exact reads_cons_iff.mpr ⟨null, hpart, reads_nil_iff.mpr rfl⟩
    · exact reads_cons_iff.mpr ⟨y, hs.part_eq, h.fills q hfills⟩
  keys p key rest hpath := by
    cases p with
    | nil =>
      cases hpath
      obtain ⟨m, rfl, hm⟩ := hs.keys key rfl
      exact ⟨m, reads_nil_iff.mpr rfl, hm⟩
    | cons s' p =>
      cases hpath
      obtain ⟨m, hread, hm⟩ := h.keys p key rest rfl
      rw [keysAt_cons]
      exact ⟨m, reads_cons_iff.mpr ⟨y, hs.part_eq, hread⟩, hm⟩

end Value

namespace Edit

open Value

variable {ε α : Type} {order : MemberOrder} {edit : Edit ε α} {v w : Value} {a : α}

theorem exists_of_putBack {whole : Value → Value} {r : EStateM.Result ε Value α}
    (h : putBack whole r = .ok a w) : ∃ y, r = .ok a y ∧ whole y = w := by
  cases r with
  | ok b y =>
    cases h
    exact ⟨y, rfl, rfl⟩
  | error e y => cases h

theorem exists_sets_element {fault : Error → ε} {i : ℕ} (h : element fault i edit v = .ok a w) :
    ∃ y, edit (v.partOrNull (.index i)) = .ok a y ∧ Sets order (.index i) y v w := by
  unfold element at h
  split at h
  case h_2 => cases h
  case h_1 xs hxs =>
    have hpart : (Elements.extendTo (i + 1) null xs).getD i null = v.partOrNull (.index i) := by
      have hread (z) : v.part (.index i) = .ok z ↔ xs[i]? = some z := by
        simp [part_iff_of_orArray hxs]
      rw [partOrNull_eq_getD hread, List.getD_eq_getElem?_getD, Elements.getElem?_extendTo]
      split
      case isTrue => rfl
      case isFalse hi => rw [if_pos i.lt_succ_self, List.getElem?_eq_none (not_lt.mp hi)]; rfl
    obtain ⟨y, hy, rfl⟩ := exists_of_putBack h
    exact ⟨y, hpart ▸ hy, sets_array hxs y⟩

theorem exists_sets_member {fault : Error → ε} {key : String} (hv : v.Keyed order)
    (h : member order fault key edit v = .ok a w) :
    ∃ y, edit (v.partOrNull (.key key)) = .ok a y ∧ Sets order (.key key) y v w := by
  unfold member at h
  split at h
  case h_2 => cases h
  case h_1 m hm =>
    have hpart : (m.findOrInsert order key null).1 = v.partOrNull (.key key) := by
      have hread (z) : v.part (.key key) = .ok z ↔ m.find? key = some z := by
        simp [part_iff_of_orObject hm]
      rw [partOrNull_eq_getD hread, Members.fst_findOrInsert]
    obtain ⟨y, hy, rfl⟩ := exists_of_putBack h
    exact ⟨y, hpart ▸ hy, sets_object hv hm y⟩

/-- An edit of the part that a step leads to sets that part to what the edit makes of it. -/
theorem exists_sets_step {fault : PathStep → Error → ε} {s : PathStep} (hv : v.Keyed order)
    (h : step order fault s edit v = .ok a w) :
    ∃ y, edit (v.partOrNull s) = .ok a y ∧ Sets order s y v w := by
  cases s with
  | index i => exact exists_sets_element h
  | key key => exact exists_sets_member hv h

/-- Assigning along a path, where every step is possible, puts the value there and leaves everything
else as it was. -/
theorem assigns_along {fault : PathStep → Error → ε} {path : List PathStep} {x v w : Value}
    (hv : v.Keyed order) (h : along order fault path (assign x) v = .ok () w) :
    Assigns order path x v w := by
  induction path generalizing v w with
  | nil =>
    cases h
    exact assigns_nil order x v
  | cons s path ih =>
    rw [along_cons] at h
    obtain ⟨y, hy, hs⟩ := exists_sets_step hv h
    exact hs.assigns (ih (hv.partOrNull s) hy)

/-- A new key between two others, whose value is made an array that grows to its third element. -/
theorem assigns_between :
    (object ⟨[("a", array [null]), ("c", null)]⟩).Keyed .byKey ∧
      along .byKey Fault.step [.key "b", .index 2] (assign (bool true))
          (object ⟨[("a", array [null]), ("c", null)]⟩) =
        .ok () (object ⟨[("a", array [null]), ("b", array [null, null, bool true]),
          ("c", null)]⟩) ∧
      Assigns .byKey [.key "b", .index 2] (bool true)
        (object ⟨[("a", array [null]), ("c", null)]⟩)
        (object ⟨[("a", array [null]), ("b", array [null, null, bool true]), ("c", null)]⟩) := by
  have hv : (object ⟨[("a", array [null]), ("c", null)]⟩).Keyed .byKey :=
    ⟨by decide, ⟨trivial, trivial⟩, trivial, trivial⟩
  have hrun : along .byKey Fault.step [.key "b", .index 2] (assign (bool true))
      (object ⟨[("a", array [null]), ("c", null)]⟩) =
        .ok () (object ⟨[("a", array [null]), ("b", array [null, null, bool true]),
          ("c", null)]⟩) := by
    rfl
  exact ⟨hv, hrun, assigns_along hv hrun⟩

end Edit

end JsonDoc
