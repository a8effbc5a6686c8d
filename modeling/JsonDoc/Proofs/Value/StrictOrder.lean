import JsonDoc.Proofs.Value.Comparison

/-!
# When the order is transitive

Objects are equal whatever the order of their members, but the order of unequal ones goes by their
members in their order.  The two fit together where objects that are equal have their members in the
same order (`Value.AgreesWith`): there equal values without floating point numbers are the same, and
their order is transitive (`Value.compare?_lt_trans`).  Members that are kept by their keys always
agree (`Value.agreesWith_of_byKey`); under insertion order they need not, and the order is not
transitive (`Value.compare?_insertion_not_transitive`).
-/

namespace JsonDoc.Value

variable {order : MemberOrder} {a b c v : Value}

/-! ### Values without floating point numbers -/

/-- No floating point number occurs in the value. -/
def FloatFree (v : Value) : Prop := ∀ x, ¬ (float x).PartOf v

/-- The objects in the value are in order, and there is no floating point number in it. -/
structure Exact (order : MemberOrder) (v : Value) : Prop where
  keyed : v.Keyed order
  floatFree : v.FloatFree

theorem Exact.element {xs : List Value} (h : (array xs).Exact order) {x : Value} (hx : x ∈ xs) :
    x.Exact order where
  keyed := keyed_array_iff.mp h.keyed x hx
  floatFree := fun y hy => h.floatFree y (.element hx hy)

theorem Exact.member {m : Members Value} (h : (object m).Exact order) {p : String × Value}
    (hp : p ∈ m.entries) : p.2.Exact order where
  keyed := (keyed_object_iff.mp h.keyed).2 p hp
  floatFree := fun y hy => h.floatFree y (.member hp hy)

theorem Exact.nodup {m : Members Value} (h : (object m).Exact order) : m.keys.Nodup :=
  (keyed_object_iff.mp h.keyed).1.nodup

/-- Without floating point numbers equality is transitive. -/
theorem equal_trans (ha : a.Exact order) (hb : b.Exact order) (hc : c.Exact order)
    (hab : a.equal b = true) (hbc : b.equal c = true) : a.equal c = true := by
  induction a using Value.induction generalizing b c with
  | null =>
    cases b with
    | null => exact hbc
    | _ => cases hab
  | bool p =>
    cases b with
    | bool q => exact beq_iff_eq.mp hab ▸ hbc
    | _ => cases hab
  | integer i =>
    cases b with
    | integer j => exact beq_iff_eq.mp hab ▸ hbc
    | float y => exact absurd .refl (hb.floatFree y)
    | _ => cases hab
  | float x => exact absurd .refl (ha.floatFree x)
  | string s =>
    cases b with
    | string t => exact beq_iff_eq.mp hab ▸ hbc
    | _ => cases hab
  | array xs ih =>
    cases b with
    | array ys =>
      cases c with
      | array zs =>
        rw [equal_array_iff, List.forall₂_iff_get] at *
        refine ⟨hab.1.trans hbc.1, fun i hx hz => ?_⟩
        have hy : i < ys.length := hab.1 ▸ hx
        exact ih _ (List.get_mem _ _) (ha.element (List.get_mem _ _))
          (hb.element (List.get_mem _ _)) (hc.element (List.get_mem _ _)) (hab.2 i hx hy)
          (hbc.2 i hy hz)
      | _ => cases hbc
    | _ => cases hab
  | object m ih =>
    cases b with
    | object n =>
      cases c with
      | object o =>
        rw [equal_object_iff ha.nodup hb.nodup] at hab
        rw [equal_object_iff hb.nodup hc.nodup] at hbc
        rw [equal_object_iff ha.nodup hc.nodup]
        refine ⟨fun key => (hab.1 key).trans (hbc.1 key), fun key x z hx hz => ?_⟩
        obtain ⟨y, hy⟩ := Members.exists_find?_of_contains_eq (hab.1 key) hx
        have hmem := Members.mem_of_find? hx
        exact ih _ hmem (ha.member hmem) (hb.member (Members.mem_of_find? hy))
          (hc.member (Members.mem_of_find? hz)) (hab.2 key x y hx hy) (hbc.2 key y z hy hz)
      | _ => cases hbc
    | _ => cases hab

/-! ### Values whose equal objects have one order -/

/-- Wherever both values have an object at the same place, and these are equal, their members have
the same order. -/
def AgreesWith (a b : Value) : Prop :=
  ∀ path m n, a.follow (fun _ e => e) path = .ok (object m) →
    b.follow (fun _ e => e) path = .ok (object n) → (object m).equal (object n) = true →
    m.keys = n.keys

theorem AgreesWith.part {x y : Value} {s : PathStep} (h : a.AgreesWith b) (hx : a.part s = .ok x)
    (hy : b.part s = .ok y) : x.AgreesWith y := by
  intro path m n hm hn
  refine h (s :: path) m n ?_ ?_
  · rw [follow_cons, hx]
    exact hm
  · rw [follow_cons, hy]
    exact hn

theorem AgreesWith.element {xs ys : List Value} (h : (array xs).AgreesWith (array ys)) {i : ℕ}
    (hx : i < xs.length) (hy : i < ys.length) : xs[i].AgreesWith ys[i] :=
  h.part (part_index hx) (part_index hy)

theorem AgreesWith.member {m n : Members Value} (h : (object m).AgreesWith (object n))
    {key : String} {x y : Value} (hx : m.find? key = some x) (hy : n.find? key = some y) :
    x.AgreesWith y :=
  h.part (part_key hx) (part_key hy)

/-- Members that are kept by their keys have one order only. -/
theorem agreesWith_of_byKey (ha : a.Keyed .byKey) (hb : b.Keyed .byKey) : a.AgreesWith b := by
  intro path m n hm hn hequal
  have hm' := (keyed_object_iff.mp (ha.follow hm)).1
  have hn' := (keyed_object_iff.mp (hb.follow hn)).1
  obtain ⟨hkeys, -⟩ := (equal_object_iff hm'.nodup hn'.nodup).mp hequal
  refine List.Pairwise.eq_of_mem_iff hm' hn' fun key => ?_
  rw [← Members.contains_iff, ← Members.contains_iff, hkeys]

/-- Equal values without floating point numbers whose members have one order are the same. -/
theorem eq_of_equal (ha : a.Exact order) (hb : b.Exact order) (hagree : a.AgreesWith b)
    (h : a.equal b = true) : a = b := by
  induction a using Value.induction generalizing b with
  | null =>
    cases b with
    | null => rfl
    | _ => cases h
  | bool p =>
    cases b with
    | bool q => rw [beq_iff_eq.mp h]
    | _ => cases h
  | integer i =>
    cases b with
    | integer j => rw [beq_iff_eq.mp h]
    | float y => exact absurd .refl (hb.floatFree y)
    | _ => cases h
  | float x => exact absurd .refl (ha.floatFree x)
  | string s =>
    cases b with
    | string t => rw [beq_iff_eq.mp h]
    | _ => cases h
  | array xs ih =>
    cases b with
    | array ys =>
      rw [equal_array_iff, List.forall₂_iff_get] at h
      congr 1
      refine List.ext_getElem h.1 fun i hx hy => ?_
      exact ih _ (List.getElem_mem hx) (ha.element (List.getElem_mem hx))
        (hb.element (List.getElem_mem hy)) (hagree.element hx hy) (h.2 i hx hy)
    | _ => cases h
  | object m ih =>
    cases b with
    | object n =>
      have hkeys := hagree [] m n rfl rfl h
      obtain ⟨hcontains, hequal⟩ := (equal_object_iff ha.nodup hb.nodup).mp h
      congr 1
      refine Members.eq_of_keys_eq hkeys ha.nodup fun key => ?_
      cases hx : m.find? key with
      | none =>
        rw [eq_comm, Members.find?_eq_none_iff, ← hkeys, ← Members.find?_eq_none_iff]
        exact hx
      | some x =>
        obtain ⟨y, hy⟩ := Members.exists_find?_of_contains_eq (hcontains key) hx
        have hmem := Members.mem_of_find? hx
        have hmem' := Members.mem_of_find? hy
        obtain rfl : x = y := ih _ hmem (ha.member hmem) (hb.member hmem')
          (hagree.member hx hy) (hequal key x y hx hy)
        exact hy.symm
    | _ => cases h

/-! ### Transitivity -/

section

variable {α : Type} {cmp : α → α → Option Ordering} {xs ys zs : List α}

theorem firstDifference_eq_some_lt_iff {first second : Option Ordering} :
    firstDifference first second = some .lt ↔
      first = some .lt ∨ first = some .eq ∧ second = some .lt := by
  rcases first with _ | (_ | _ | _) <;> simp [firstDifference]

/-- The order of lists is transitive if that of their items is, where items of equal order are the
same. -/
theorem compareLists?_lt_trans
    (hxy : ∀ i (hx : i < xs.length) (hy : i < ys.length),
      cmp xs[i] ys[i] = some .eq → xs[i] = ys[i])
    (hyz : ∀ i (hy : i < ys.length) (hz : i < zs.length),
      cmp ys[i] zs[i] = some .eq → ys[i] = zs[i])
    (hlt : ∀ i (hx : i < xs.length) (hy : i < ys.length) (hz : i < zs.length),
      cmp xs[i] ys[i] = some .lt → cmp ys[i] zs[i] = some .lt → cmp xs[i] zs[i] = some .lt)
    (h : compareLists? cmp xs ys = some .lt) (h' : compareLists? cmp ys zs = some .lt) :
    compareLists? cmp xs zs = some .lt := by
  induction xs generalizing ys zs with
  | nil =>
    cases zs with
    | nil => cases ys <;> cases h'
    | cons z zs => rfl
  | cons x xs ih =>
    rcases ys with _ | ⟨y, ys⟩
    · cases h
    rcases zs with _ | ⟨z, zs⟩
    · cases h'
    rw [compareLists?, firstDifference_eq_some_lt_iff] at h h' ⊢
    have hfirst₁ := hxy 0 (Nat.succ_pos _) (Nat.succ_pos _)
    have hfirst₂ := hyz 0 (Nat.succ_pos _) (Nat.succ_pos _)
    rcases h with hlt₁ | ⟨heq₁, hrest₁⟩
    · rcases h' with hlt₂ | ⟨heq₂, -⟩
      · exact Or.inl (hlt 0 (Nat.succ_pos _) (Nat.succ_pos _) (Nat.succ_pos _) hlt₁ hlt₂)
      · obtain rfl : y = z := hfirst₂ heq₂
        exact Or.inl hlt₁
    · obtain rfl : x = y := hfirst₁ heq₁
      rcases h' with hlt₂ | ⟨heq₂, hrest₂⟩
      · exact Or.inl hlt₂
      · refine Or.inr ⟨heq₂, ih (fun i hx hy => ?_) (fun i hy hz => ?_) (fun i hx hy hz => ?_)
          hrest₁ hrest₂⟩
        · exact hxy (i + 1) (Nat.succ_lt_succ hx) (Nat.succ_lt_succ hy)
        · exact hyz (i + 1) (Nat.succ_lt_succ hy) (Nat.succ_lt_succ hz)
        · exact hlt (i + 1) (Nat.succ_lt_succ hx) (Nat.succ_lt_succ hy) (Nat.succ_lt_succ hz)

end

theorem some_compare_lt_trans {α : Type} [LinearOrder α] {x y z : α}
    (h : some (compare x y) = some .lt) (h' : some (compare y z) = some .lt) :
    some (compare x z) = some .lt := by
  rw [Option.some.injEq, compare_lt_iff_lt] at *
  exact h.trans h'

/-- The order of members is transitive if that of values under one key is. -/
theorem compareMember?_lt_trans {p q r : String × Value}
    (hlt : p.1 = q.1 → q.1 = r.1 → p.2.compare? q.2 = some .lt → q.2.compare? r.2 = some .lt →
      p.2.compare? r.2 = some .lt)
    (h : compareMember? p q = some .lt) (h' : compareMember? q r = some .lt) :
    compareMember? p r = some .lt := by
  rw [compareMember?, firstDifference_eq_some_lt_iff] at *
  rcases h with hkey | ⟨hkey, hvalue⟩
  · rcases h' with hkey' | ⟨hkey', -⟩
    · exact Or.inl (some_compare_lt_trans hkey hkey')
    · rw [Option.some.injEq, compare_eq_iff_eq] at hkey'
      exact Or.inl (hkey' ▸ hkey)
  · rw [Option.some.injEq, compare_eq_iff_eq] at hkey
    rcases h' with hkey' | ⟨hkey', hvalue'⟩
    · exact Or.inl (hkey ▸ hkey')
    · rw [Option.some.injEq, compare_eq_iff_eq] at hkey'
      refine Or.inr ⟨?_, hlt hkey hkey' hvalue hvalue'⟩
      rw [Option.some.injEq, compare_eq_iff_eq]
      exact hkey.trans hkey'

theorem eq_of_compare?_eq (ha : a.Exact order) (hb : b.Exact order) (hagree : a.AgreesWith b)
    (h : a.compare? b = some .eq) : a = b :=
  eq_of_equal ha hb hagree ((compare?_eq_some_eq_iff ha.keyed hb.keyed).mp h)

theorem AgreesWith.entry {m n : Members Value} (h : (object m).AgreesWith (object n))
    (hm : m.keys.Nodup) (hn : n.keys.Nodup) {p q : String × Value} (hp : p ∈ m.entries)
    (hq : q ∈ n.entries) (hkey : p.1 = q.1) : p.2.AgreesWith q.2 :=
  h.member ((Members.lookup?_eq_some_iff hm).mpr hp)
    ((Members.lookup?_eq_some_iff hn).mpr (by rw [hkey]; exact hq))

theorem eq_of_compareMember?_eq {m n : Members Value} (hm : (object m).Exact order)
    (hn : (object n).Exact order) (hagree : (object m).AgreesWith (object n))
    {p q : String × Value} (hp : p ∈ m.entries) (hq : q ∈ n.entries)
    (h : compareMember? p q = some .eq) : p = q := by
  obtain ⟨hkey, hvalue⟩ := compareMember?_eq_some_eq_iff.mp h
  exact Prod.ext hkey (eq_of_compare?_eq (hm.member hp) (hn.member hq)
    (hagree.entry hm.nodup hn.nodup hp hq hkey) hvalue)

/-- The order of unequal objects is that of their members. -/
theorem compareLists?_of_object_lt {m n : Members Value}
    (h : (object m).compare? (object n) = some .lt) :
    compareLists? compareMember? m.entries n.entries = some .lt := by
  rw [compare?_object] at h
  split at h
  case isTrue => cases h
  case isFalse => exact h

theorem Exact.compareLists?_self {m : Members Value} (hm : (object m).Exact order) :
    compareLists? compareMember? m.entries m.entries = some .eq := by
  rw [compareLists?_eq_some_eq_iff, List.forall₂_same]
  intro p hp
  have hvalue := hm.member hp
  exact compareMember?_eq_some_eq_iff.mpr ⟨rfl, (compare?_eq_some_eq_iff hvalue.keyed
    hvalue.keyed).mpr (equal_self hvalue.keyed (hvalue.floatFree .nan))⟩

/-- Where equal objects have their members in one order, the order of values without floating point
numbers is transitive. -/
theorem compare?_lt_trans (ha : a.Exact order) (hb : b.Exact order) (hc : c.Exact order)
    (hab : a.AgreesWith b) (hbc : b.AgreesWith c) (hac : a.AgreesWith c)
    (h : a.compare? b = some .lt) (h' : b.compare? c = some .lt) : a.compare? c = some .lt := by
  induction a using Value.induction generalizing b c with
  | null => cases b <;> cases h
  | bool p =>
    cases b with
    | bool q =>
      cases c with
      | bool r => exact some_compare_lt_trans h h'
      | _ => cases h'
    | _ => cases h
  | integer i =>
    cases b with
    | integer j =>
      cases c with
      | integer k => exact some_compare_lt_trans h h'
      | float z => exact absurd .refl (hc.floatFree z)
      | _ => cases h'
    | float y => exact absurd .refl (hb.floatFree y)
    | _ => cases h
  | float x => exact absurd .refl (ha.floatFree x)
  | string s =>
    cases b with
    | string t =>
      cases c with
      | string u => exact some_compare_lt_trans h h'
      | _ => cases h'
    | _ => cases h
  | array xs ih =>
    cases b with
    | array ys =>
      cases c with
      | array zs =>
        rw [compare?_array] at *
        refine compareLists?_lt_trans (fun i hx hy => ?_) (fun i hy hz => ?_)
          (fun i hx hy hz => ?_) h h'
        · exact eq_of_compare?_eq (ha.element (List.getElem_mem hx))
            (hb.element (List.getElem_mem hy)) (hab.element hx hy)
        · exact eq_of_compare?_eq (hb.element (List.getElem_mem hy))
            (hc.element (List.getElem_mem hz)) (hbc.element hy hz)
        · exact ih _ (List.getElem_mem hx) (ha.element (List.getElem_mem hx))
            (hb.element (List.getElem_mem hy)) (hc.element (List.getElem_mem hz))
            (hab.element hx hy) (hbc.element hy hz) (hac.element hx hz)
      | _ => cases h'
    | _ => cases h
  | object m ih =>
    cases b with
    | object n =>
      cases c with
      | object o =>
        have hlists : compareLists? compareMember? m.entries o.entries = some .lt := by
          refine compareLists?_lt_trans (fun i hx hy => ?_) (fun i hy hz => ?_)
            (fun i hx hy hz => ?_) (compareLists?_of_object_lt h) (compareLists?_of_object_lt h')
          · exact eq_of_compareMember?_eq ha hb hab (List.getElem_mem hx) (List.getElem_mem hy)
          · exact eq_of_compareMember?_eq hb hc hbc (List.getElem_mem hy) (List.getElem_mem hz)
          · have hp := List.getElem_mem hx
            have hq := List.getElem_mem hy
            have hr := List.getElem_mem hz
            refine compareMember?_lt_trans fun hpq hqr => ?_
            exact ih _ hp (ha.member hp) (hb.member hq) (hc.member hr)
              (hab.entry ha.nodup hb.nodup hp hq hpq) (hbc.entry hb.nodup hc.nodup hq hr hqr)
              (hac.entry ha.nodup hc.nodup hp hr (hpq.trans hqr))
        rw [compare?_object, if_neg, hlists]
        intro hequal
        cases eq_of_equal ha hc hac hequal
        rw [ha.compareLists?_self] at hlists
        cases hlists
      | _ => cases h'
    | _ => cases h

/-- The order of values without floating point numbers is transitive, and equal ones are of the same
order to others, if their objects are kept by their keys or equal objects have their members in the
same order; and whatever the order of members is, equal values are equal to the same others. -/
theorem compare?_strict (ha : a.Keyed order) (hb : b.Keyed order) (hc : c.Keyed order)
    (hfa : a.FloatFree) (hfb : b.FloatFree) (hfc : c.FloatFree) :
    (order = .byKey ∨ a.AgreesWith b ∧ b.AgreesWith c ∧ a.AgreesWith c →
      a.compare? b = some .lt → b.compare? c = some .lt → a.compare? c = some .lt) ∧
    (order = .byKey ∨ a.AgreesWith b →
      a.equal b = true → a.compare? c = b.compare? c) ∧
    (a.equal b = true → (a.compare? c = some .eq ↔ b.compare? c = some .eq)) := by
  have ha' : a.Exact order := ⟨ha, hfa⟩
  have hb' : b.Exact order := ⟨hb, hfb⟩
  have hc' : c.Exact order := ⟨hc, hfc⟩
  refine ⟨?_, ?_, fun hequal => ?_⟩
  · rintro (rfl | ⟨hab, hbc, hac⟩)
    · exact compare?_lt_trans ha' hb' hc' (agreesWith_of_byKey ha hb) (agreesWith_of_byKey hb hc)
        (agreesWith_of_byKey ha hc)
    · exact compare?_lt_trans ha' hb' hc' hab hbc hac
  · rintro (rfl | hab) hequal
    · rw [eq_of_equal ha' hb' (agreesWith_of_byKey ha hb) hequal]
    · rw [eq_of_equal ha' hb' hab hequal]
  · rw [compare?_eq_some_eq_iff ha hc, compare?_eq_some_eq_iff hb hc]
    exact ⟨equal_trans hb' ha' hc' (equal_symm ha hb hequal), equal_trans ha' hb' hc' hequal⟩

/-- Three objects in ascending order, and one whose members are equal in both orders. -/
theorem compare?_strict_ascending :
    let a := object ⟨[("x", integer 1), ("y", array [integer 2])]⟩
    let b := object ⟨[("x", integer 1), ("y", array [integer 2, null])]⟩
    let c := object ⟨[("x", integer 2)]⟩
    let d := object ⟨[("y", array [integer 2]), ("x", integer 1)]⟩
    (a.compare? b = some .lt ∧ b.compare? c = some .lt ∧ a.compare? c = some .lt) ∧
      a.equal d = true ∧ (a.compare? a = some .eq ↔ d.compare? a = some .eq) := by
  intro a b c d
  have hab : a.compare? b = some .lt := by decide +kernel
  have hbc : b.compare? c = some .lt := by decide +kernel
  have had : a.equal d = true := by decide +kernel
  have ha : a.Keyed .byKey := ⟨by decide, trivial, ⟨trivial, trivial⟩, trivial⟩
  have hb : b.Keyed .byKey := ⟨by decide, trivial, ⟨trivial, trivial, trivial⟩, trivial⟩
  have hc : c.Keyed .byKey := ⟨by decide, trivial, trivial⟩
  have ha' : a.Keyed .insertion := ⟨by decide, trivial, ⟨trivial, trivial⟩, trivial⟩
  have hd : d.Keyed .insertion := ⟨by decide, ⟨trivial, trivial⟩, trivial, trivial⟩
  have hfa : a.FloatFree := by simp [FloatFree, a]
  have hfb : b.FloatFree := by simp [FloatFree, b]
  have hfc : c.FloatFree := by simp [FloatFree, c]
  have hfd : d.FloatFree := by simp [FloatFree, d]
  have hsorted := compare?_strict ha hb hc hfa hfb hfc
  have hordered := compare?_strict ha' hd ha' hfa hfd hfa
  exact ⟨⟨hab, hbc, hsorted.1 (Or.inl rfl) hab hbc⟩, had, hordered.2.2 had⟩

/-- Under insertion order the order is not transitive, and equal objects are of different order to
another: the first and the last of these are equal, but the one between them is above the first and
below the last. -/
theorem compare?_insertion_not_transitive :
    let a := object ⟨[("x", integer 1), ("y", integer 2)]⟩
    let b := object ⟨[("x", integer 1), ("y", integer 3)]⟩
    let c := object ⟨[("y", integer 2), ("x", integer 1)]⟩
    (a.Keyed .insertion ∧ b.Keyed .insertion ∧ c.Keyed .insertion) ∧
      (a.FloatFree ∧ b.FloatFree ∧ c.FloatFree) ∧
      (a.compare? b = some .lt ∧ b.compare? c = some .lt ∧ a.compare? c ≠ some .lt) ∧
      a.equal c = true ∧ a.compare? b ≠ c.compare? b := by
  intro a b c
  refine ⟨⟨?_, ?_, ?_⟩, ⟨?_, ?_, ?_⟩, by decide +kernel, by decide +kernel, by decide +kernel⟩
  · exact ⟨by decide, trivial, trivial, trivial⟩
  · exact ⟨by decide, trivial, trivial, trivial⟩
  · exact ⟨by decide, trivial, trivial, trivial⟩
  · simp [FloatFree, a]
  · simp [FloatFree, b]
  · simp [FloatFree, c]

end JsonDoc.Value
