import JsonDoc.Proofs.Binary64.Comparison
import JsonDoc.Proofs.Elements
import JsonDoc.Proofs.Value.Equality
import JsonDoc.Proofs.Value.Parts

/-!
# Equality and order agree

Two objects are equal iff under every key there is nothing in either of them or equal values in both
(`Value.equal_object_iff`), so equality does not depend on which value comes first.  The order of
two values is that of equal ones iff they are equal, and is reversed when they are
(`Value.compare?_consistent`).
-/

namespace JsonDoc

namespace Members

variable {α β : Type} {m : Members α} {n : Members β} {key : String} {x : α}

theorem exists_find?_of_contains_eq (h : m.contains key = n.contains key)
    (hx : m.find? key = some x) : ∃ y, n.find? key = some y := by
  rw [contains, contains, hx] at h
  exact Option.isSome_iff_exists.mp h.symm

/-- Members with the same keys are as many. -/
theorem size_eq_of_contains_eq (hm : m.keys.Nodup) (hn : n.keys.Nodup)
    (h : ∀ key, m.contains key = n.contains key) : m.size = n.size := by
  have hperm : m.keys.Perm n.keys := by
    rw [List.perm_ext_iff_of_nodup hm hn]
    intro key
    rw [← contains_iff, ← contains_iff, h]
  have hlen := hperm.length_eq
  rwa [keys, keys, List.length_map, List.length_map] at hlen

end Members

namespace Value

variable {order : MemberOrder} {a b : Value} {xs ys : List Value} {m n : Members Value}

/-! ### What makes values equal -/

theorem equalElements_iff : xs.length = ys.length ∧ equalElements xs ys = true ↔
    List.Forall₂ (fun x y => x.equal y = true) xs ys := by
  induction xs generalizing ys with
  | nil =>
    cases ys with
    | nil => exact iff_of_true ⟨rfl, rfl⟩ .nil
    | cons y ys => exact iff_of_false (fun h => nomatch h.1) nofun
  | cons x xs ih =>
    cases ys with
    | nil => exact iff_of_false (fun h => nomatch h.1) nofun
    | cons y ys =>
      rw [List.forall₂_cons, ← ih, equalElements, Bool.and_eq_true, List.length_cons,
        List.length_cons, Nat.succ_inj]
      exact and_left_comm

/-- Arrays are equal iff their elements are, one by one. -/
theorem equal_array_iff :
    (array xs).equal (array ys) = true ↔ List.Forall₂ (fun x y => x.equal y = true) xs ys := by
  rw [← equalElements_iff, equal, Bool.and_eq_true, beq_iff_eq]

theorem equalMembers_iff {entries : List (String × Value)} :
    equalMembers entries n = true ↔
      ∀ p ∈ entries, ∃ y, n.find? p.1 = some y ∧ p.2.equal y = true := by
  induction entries with
  | nil => simp [equalMembers]
  | cons p entries ih =>
    rw [List.forall_mem_cons, ← ih, equalMembers, Bool.and_eq_true]
    cases n.find? p.1 with
    | none => simp
    | some y => simp

/-- Objects are equal iff they have the same keys with equal values under them. -/
theorem equal_object_iff (hm : m.keys.Nodup) (hn : n.keys.Nodup) :
    (object m).equal (object n) = true ↔ (∀ key, m.contains key = n.contains key) ∧
      ∀ key x y, m.find? key = some x → n.find? key = some y → x.equal y = true := by
  have hequal : (object m).equal (object n) =
      (m.entries.length == n.size && equalMembers m.entries n) := rfl
  rw [hequal, Bool.and_eq_true, beq_iff_eq, equalMembers_iff]
  constructor
  · rintro ⟨hsize, hentries⟩
    refine ⟨Members.contains_eq_of_size_eq hm hsize fun key hkey => ?_, fun key x y hx hy => ?_⟩
    · obtain ⟨p, hp, rfl⟩ := List.mem_map.mp hkey
      obtain ⟨y, hy, -⟩ := hentries p hp
      rw [← Members.contains_iff, Members.contains, hy]
      rfl
    · obtain ⟨y', hy', hequal⟩ := hentries _ ((Members.lookup?_eq_some_iff hm).mp hx)
      cases hy.symm.trans hy'
      exact hequal
  · rintro ⟨hkeys, hvalues⟩
    refine ⟨Members.size_eq_of_contains_eq hm hn hkeys, fun p hp => ?_⟩
    have hx : m.find? p.1 = some p.2 := (Members.lookup?_eq_some_iff hm).mpr hp
    obtain ⟨y, hy⟩ := Members.exists_find?_of_contains_eq (hkeys p.1) hx
    exact ⟨y, hy, hvalues p.1 p.2 y hx hy⟩

/-- A value without not-a-number is equal to itself. -/
theorem equal_self (ha : a.Keyed order) (hnan : ¬ (float .nan).PartOf a) : a.equal a = true := by
  induction a using Value.induction with
  | null => rfl
  | bool p => exact beq_self_eq_true p
  | integer i => exact beq_self_eq_true i
  | float x =>
    refine Binary64.nearlyEqual_self ?_
    rintro rfl
    exact hnan .refl
  | string s => exact beq_self_eq_true s
  | array xs ih =>
    rw [keyed_array_iff] at ha
    rw [equal_array_iff, List.forall₂_same]
    exact fun x hx => ih x hx (ha x hx) fun h => hnan (.element hx h)
  | object m ih =>
    obtain ⟨hm, hvalues⟩ := keyed_object_iff.mp ha
    rw [equal_object_iff hm.nodup hm.nodup]
    refine ⟨fun _ => rfl, fun key x y hx hy => ?_⟩
    cases hx.symm.trans hy
    have hmem := Members.mem_of_find? hx
    exact ih _ hmem (hvalues _ hmem) fun h => hnan (.member hmem h)

/-- Equality does not depend on which value comes first. -/
theorem equal_symm (ha : a.Keyed order) (hb : b.Keyed order) (h : a.equal b = true) :
    b.equal a = true := by
  induction a using Value.induction generalizing b with
  | null =>
    cases b with
    | null => rfl
    | _ => cases h
  | bool p =>
    cases b with
    | bool q => exact beq_iff_eq.mpr (beq_iff_eq.mp h).symm
    | _ => cases h
  | integer i =>
    cases b with
    | integer j => exact beq_iff_eq.mpr (beq_iff_eq.mp h).symm
    | float y => exact h
    | _ => cases h
  | float x =>
    cases b with
    | integer j => exact h
    | float y => exact (Binary64.nearlyEqual_comm y x).trans h
    | _ => cases h
  | string s =>
    cases b with
    | string t => exact beq_iff_eq.mpr (beq_iff_eq.mp h).symm
    | _ => cases h
  | array xs ih =>
    cases b with
    | array ys =>
      rw [keyed_array_iff] at ha hb
      rw [equal_array_iff] at h ⊢
      exact (forall₂_imp_of_mem h fun x hx y hy hxy => ih x hx (ha x hx) (hb y hy) hxy).flip
    | _ => cases h
  | object m ih =>
    cases b with
    | object n =>
      obtain ⟨hm, hvalues⟩ := keyed_object_iff.mp ha
      obtain ⟨hn, hvalues'⟩ := keyed_object_iff.mp hb
      rw [equal_object_iff hm.nodup hn.nodup] at h
      rw [equal_object_iff hn.nodup hm.nodup]
      refine ⟨fun key => (h.1 key).symm, fun key y x hy hx => ?_⟩
      have hmem := Members.mem_of_find? hx
      exact ih _ hmem (hvalues _ hmem) (hvalues' _ (Members.mem_of_find? hy)) (h.2 key x y hx hy)
    | _ => cases h

theorem equal_comm (ha : a.Keyed order) (hb : b.Keyed order) : a.equal b = b.equal a :=
  Bool.eq_iff_iff.mpr ⟨equal_symm ha hb, equal_symm hb ha⟩

/-! ### The order of lists -/

theorem firstDifference_eq_some_eq_iff {first second : Option Ordering} :
    firstDifference first second = some .eq ↔ first = some .eq ∧ second = some .eq := by
  unfold firstDifference
  split
  case isTrue h => exact (and_iff_right h).symm
  case isFalse h => exact iff_of_false h fun h' => h h'.1

theorem firstDifference_swap (first second : Option Ordering) :
    firstDifference (first.map Ordering.swap) (second.map Ordering.swap) =
      (firstDifference first second).map Ordering.swap := by
  rcases first with _ | (_ | _ | _) <;> rfl

theorem firstDifference_assoc (first second third : Option Ordering) :
    firstDifference first (firstDifference second third) =
      firstDifference (firstDifference first second) third := by
  rcases first with _ | (_ | _ | _) <;> rfl

section

variable {α : Type} {cmp : α → α → Option Ordering} {xs ys : List α}

/-- The order of lists, by the first items that differ. -/
def compareLists? (cmp : α → α → Option Ordering) : List α → List α → Option Ordering
  | [], [] => some .eq
  | [], _ :: _ => some .lt
  | _ :: _, [] => some .gt
  | x :: xs, y :: ys => firstDifference (cmp x y) (compareLists? cmp xs ys)

/-- Lists are of equal order iff their items are one by one. -/
theorem compareLists?_eq_some_eq_iff :
    compareLists? cmp xs ys = some .eq ↔ List.Forall₂ (fun x y => cmp x y = some .eq) xs ys := by
  induction xs generalizing ys with
  | nil =>
    cases ys with
    | nil => exact iff_of_true rfl .nil
    | cons y ys => exact iff_of_false nofun nofun
  | cons x xs ih =>
    cases ys with
    | nil => exact iff_of_false nofun nofun
    | cons y ys => rw [compareLists?, firstDifference_eq_some_eq_iff, ih, List.forall₂_cons]

theorem compareLists?_swap (h : ∀ x ∈ xs, ∀ y ∈ ys, cmp y x = (cmp x y).map Ordering.swap) :
    compareLists? cmp ys xs = (compareLists? cmp xs ys).map Ordering.swap := by
  induction xs generalizing ys with
  | nil => cases ys <;> rfl
  | cons x xs ih =>
    cases ys with
    | nil => rfl
    | cons y ys =>
      have hrest := ih fun x hx y hy =>
        h x (List.mem_cons_of_mem _ hx) y (List.mem_cons_of_mem _ hy)
      rw [compareLists?, compareLists?, ← firstDifference_swap, ← hrest,
        ← h x List.mem_cons_self y List.mem_cons_self]

end

/-- The order of members, by their keys and then by their values. -/
def compareMember? (p q : String × Value) : Option Ordering :=
  firstDifference (some (compare p.1 q.1)) (p.2.compare? q.2)

theorem compareMember?_eq_some_eq_iff {p q : String × Value} :
    compareMember? p q = some .eq ↔ p.1 = q.1 ∧ p.2.compare? q.2 = some .eq := by
  rw [compareMember?, firstDifference_eq_some_eq_iff, Option.some.injEq, compare_eq_iff_eq]

theorem compareMember?_swap {p q : String × Value}
    (h : q.2.compare? p.2 = (p.2.compare? q.2).map Ordering.swap) :
    compareMember? q p = (compareMember? p q).map Ordering.swap := by
  have hkey : some (compare q.1 p.1) = (some (compare p.1 q.1)).map Ordering.swap :=
    congrArg some Std.OrientedOrd.eq_swap
  rw [compareMember?, compareMember?, h, hkey, firstDifference_swap]

theorem compareElements?_eq (xs ys : List Value) :
    compareElements? xs ys = compareLists? compare? xs ys := by
  induction xs generalizing ys with
  | nil => cases ys <;> rfl
  | cons x xs ih =>
    cases ys with
    | nil => rfl
    | cons y ys => rw [compareElements?, compareLists?, ih]

theorem compareMembers?_eq (ps qs : List (String × Value)) :
    compareMembers? ps qs = compareLists? compareMember? ps qs := by
  induction ps generalizing qs with
  | nil => cases qs <;> rfl
  | cons p ps ih =>
    cases qs with
    | nil => rfl
    | cons q qs => rw [compareMembers?, compareLists?, compareMember?, ih, firstDifference_assoc]

theorem compare?_array (xs ys : List Value) :
    (array xs).compare? (array ys) = compareLists? compare? xs ys := compareElements?_eq xs ys

theorem compare?_object (m n : Members Value) : (object m).compare? (object n) =
    if (object m).equal (object n) then some .eq
    else compareLists? compareMember? m.entries n.entries := by
  rw [← compareMembers?_eq]
  rfl

/-! ### The order of values -/

/-- Objects are equal if their members are, one by one. -/
theorem equal_object_of_forall₂ (hn : n.keys.Nodup)
    (h : List.Forall₂ (fun p q => p.1 = q.1 ∧ p.2.equal q.2 = true) m.entries n.entries) :
    (object m).equal (object n) = true := by
  have hequal : (object m).equal (object n) =
      (m.entries.length == n.size && equalMembers m.entries n) := rfl
  rw [hequal, Bool.and_eq_true, beq_iff_eq, equalMembers_iff]
  refine ⟨h.length_eq, fun p hp => ?_⟩
  obtain ⟨q, hq, hkey, hvalue⟩ := exists_mem_of_forall₂ h hp
  exact ⟨q.2, (Members.lookup?_eq_some_iff hn).mpr (by rw [hkey]; exact hq), hvalue⟩

/-- Values are of equal order iff they are equal. -/
theorem compare?_eq_some_eq_iff (ha : a.Keyed order) (hb : b.Keyed order) :
    a.compare? b = some .eq ↔ a.equal b = true := by
  induction a using Value.induction generalizing b with
  | null => cases b <;> first | exact iff_of_true rfl rfl | exact iff_of_false nofun nofun
  | bool p =>
    cases b with
    | bool q => exact Option.some_inj.trans (compare_eq_iff_eq.trans beq_iff_eq.symm)
    | _ => exact iff_of_false nofun nofun
  | integer i =>
    cases b with
    | integer j =>
      exact Option.some_inj.trans (compare_eq_iff_eq.trans (Int64.toInt_inj.trans beq_iff_eq.symm))
    | float y => exact Binary64.nearlyCompare?_eq_some_eq_iff
    | _ => exact iff_of_false nofun nofun
  | float x =>
    cases b with
    | integer j =>
      exact Binary64.nearlyCompare?_eq_some_eq_iff.trans (by rw [Binary64.nearlyEqual_comm]; rfl)
    | float y => exact Binary64.nearlyCompare?_eq_some_eq_iff
    | _ => exact iff_of_false nofun nofun
  | string s =>
    cases b with
    | string t => exact Option.some_inj.trans (compare_eq_iff_eq.trans beq_iff_eq.symm)
    | _ => exact iff_of_false nofun nofun
  | array xs ih =>
    cases b with
    | array ys =>
      rw [keyed_array_iff] at ha hb
      rw [equal_array_iff, compare?_array, compareLists?_eq_some_eq_iff]
      exact forall₂_congr_of_mem fun x hx y hy => ih x hx (ha x hx) (hb y hy)
    | _ => exact iff_of_false nofun nofun
  | object m ih =>
    cases b with
    | object n =>
      obtain ⟨-, hvalues⟩ := keyed_object_iff.mp ha
      obtain ⟨hn, hvalues'⟩ := keyed_object_iff.mp hb
      rw [compare?_object]
      split
      case isTrue h => exact iff_of_true rfl h
      case isFalse h =>
        refine iff_of_false (fun hcompare => h (equal_object_of_forall₂ hn.nodup ?_)) h
        refine forall₂_imp_of_mem (compareLists?_eq_some_eq_iff.mp hcompare) fun p hp q hq hpq => ?_
        obtain ⟨hkey, hvalue⟩ := compareMember?_eq_some_eq_iff.mp hpq
        exact ⟨hkey, (ih p hp (hvalues p hp) (hvalues' q hq)).mp hvalue⟩
    | _ => exact iff_of_false nofun nofun

/-- The order of two values is reversed when they are. -/
theorem compare?_swap (ha : a.Keyed order) (hb : b.Keyed order) :
    b.compare? a = (a.compare? b).map Ordering.swap := by
  induction a using Value.induction generalizing b with
  | null => cases b <;> rfl
  | bool p =>
    cases b with
    | bool q => exact congrArg some Std.OrientedOrd.eq_swap
    | _ => rfl
  | integer i =>
    cases b with
    | integer j => exact congrArg some Std.OrientedOrd.eq_swap
    | float y => exact Binary64.nearlyCompare?_swap _ _
    | _ => rfl
  | float x =>
    cases b with
    | integer j => exact Binary64.nearlyCompare?_swap _ _
    | float y => exact Binary64.nearlyCompare?_swap _ _
    | _ => rfl
  | string s =>
    cases b with
    | string t => exact congrArg some Std.OrientedOrd.eq_swap
    | _ => rfl
  | array xs ih =>
    cases b with
    | array ys =>
      rw [keyed_array_iff] at ha hb
      rw [compare?_array, compare?_array]
      exact compareLists?_swap fun x hx y hy => ih x hx (ha x hx) (hb y hy)
    | _ => rfl
  | object m ih =>
    cases b with
    | object n =>
      have hequal := equal_comm ha hb
      obtain ⟨-, hvalues⟩ := keyed_object_iff.mp ha
      obtain ⟨-, hvalues'⟩ := keyed_object_iff.mp hb
      rw [compare?_object, compare?_object, hequal]
      split
      case isTrue => rfl
      case isFalse =>
        exact compareLists?_swap fun p hp q hq =>
          compareMember?_swap (ih p hp (hvalues p hp) (hvalues' q hq))
    | _ => rfl

/-- Two values are equal either way around, are of equal order iff they are equal, and are of the
reversed order the other way around; and a value without not-a-number is equal to itself. -/
theorem compare?_consistent (ha : a.Keyed order) (hb : b.Keyed order) :
    a.equal b = b.equal a ∧ (a.compare? b = some .eq ↔ a.equal b = true) ∧
      b.compare? a = (a.compare? b).map Ordering.swap ∧
      (¬ (float .nan).PartOf a → a.equal a = true) :=
  ⟨equal_comm ha hb, compare?_eq_some_eq_iff ha hb, compare?_swap ha hb, equal_self ha⟩

/-- Two orders of members, an integer and a floating point number, and infinities of both signs. -/
theorem compare?_consistent_mixed :
    let a := object ⟨[("x", integer 3), ("y", array [float (.infinite false)])]⟩
    let b := object ⟨[("y", array [float (.infinite true)]),
      ("x", float (.finite false ⟨0x4008000000000000, by decide⟩))]⟩
    (a.Keyed .insertion ∧ b.Keyed .insertion ∧ ¬ (float .nan).PartOf a) ∧
      a.equal b = b.equal a ∧ (a.compare? b = some .eq ↔ a.equal b = true) ∧
      b.compare? a = (a.compare? b).map Ordering.swap ∧ a.equal a = true := by
  intro a b
  have ha : a.Keyed .insertion := ⟨by decide, trivial, ⟨trivial, trivial⟩, trivial⟩
  have hb : b.Keyed .insertion := ⟨by decide, ⟨trivial, trivial⟩, trivial, trivial⟩
  have hnan : ¬ (float .nan).PartOf a := by simp [a]
  obtain ⟨hcomm, hiff, hswap, hself⟩ := compare?_consistent ha hb
  exact ⟨⟨ha, hb, hnan⟩, hcomm, hiff, hswap, hself hnan⟩

end Value

end JsonDoc
