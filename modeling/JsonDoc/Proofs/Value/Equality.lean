import JsonDoc.Proofs.Binary64.Tolerance
import JsonDoc.Proofs.Value.Keyed

/-!
# Values that are equal

Equal values have the same shape, with the same members under each key whatever their order, and
their numbers are near (`Value.corresponds_of_equal`).
-/

namespace JsonDoc

namespace Members

variable {α β : Type} {m : Members α} {m' : Members β} {key : String}

theorem contains_iff : m.contains key = true ↔ key ∈ m.keys := by
  rw [← not_iff_not, ← find?_eq_none_iff, contains, Option.not_isSome_iff_eq_none]

/-- Keys that are all among as many others are those. -/
theorem contains_eq_of_size_eq (hnodup : m.keys.Nodup) (hsize : m.size = m'.size)
    (h : m.keys ⊆ m'.keys) (key : String) : m.contains key = m'.contains key := by
  have hlen : m'.keys.length ≤ m.keys.length := by
    rw [keys, keys, List.length_map, List.length_map]
    exact hsize.ge
  have hperm := (List.subperm_of_subset hnodup h).perm_of_length_le hlen
  rw [Bool.eq_iff_iff, contains_iff, contains_iff]
  exact hperm.mem_iff

end Members

namespace Value

/-- The second value has the shape of the first, with the same keys in each object, and numbers
that correspond at the places of numbers.  Integers are the same, and an integer corresponds to a
floating point number as the nearest one to it does. -/
inductive Corresponds (near : Binary64 → Binary64 → Prop) : Value → Value → Prop
  | null : Corresponds near .null .null
  | bool (b : Bool) : Corresponds near (.bool b) (.bool b)
  | string (s : String) : Corresponds near (.string s) (.string s)
  | integer (i : Int64) : Corresponds near (.integer i) (.integer i)
  | integerFloat {i : Int64} {y : Binary64} (h : near (.ofInt i.toInt) y) :
      Corresponds near (.integer i) (.float y)
  | floatInteger {x : Binary64} {i : Int64} (h : near x (.ofInt i.toInt)) :
      Corresponds near (.float x) (.integer i)
  | float {x y : Binary64} (h : near x y) : Corresponds near (.float x) (.float y)
  | array {xs ys : List Value} (hlen : xs.length = ys.length)
      (h : ∀ i (hx : i < xs.length) (hy : i < ys.length), Corresponds near xs[i] ys[i]) :
      Corresponds near (.array xs) (.array ys)
  | object {ms ns : Members Value} (hkeys : ∀ key, ms.contains key = ns.contains key)
      (h : ∀ key x y, ms.find? key = some x → ns.find? key = some y → Corresponds near x y) :
      Corresponds near (.object ms) (.object ns)

variable {order : MemberOrder}

mutual

/-- Values that are equal correspond, with numbers that are near. -/
theorem corresponds_of_equal (a b : Value) (ha : a.Keyed order) (h : a.equal b = true) :
    a.Corresponds Binary64.Near b := by
  match a with
  | null =>
    cases b with
    | null => exact .null
    | _ => cases h
  | bool p =>
    cases b with
    | bool q =>
      obtain rfl := beq_iff_eq.mp h
      exact .bool p
    | _ => cases h
  | string s =>
    cases b with
    | string t =>
      obtain rfl := beq_iff_eq.mp h
      exact .string s
    | _ => cases h
  | integer i =>
    cases b with
    | integer j =>
      obtain rfl := beq_iff_eq.mp h
      exact .integer i
    | float y => exact .integerFloat (Binary64.near_of_nearlyEqual h)
    | _ => cases h
  | float x =>
    cases b with
    | integer j => exact .floatInteger (Binary64.near_of_nearlyEqual h).symm
    | float y => exact .float (Binary64.near_of_nearlyEqual h)
    | _ => cases h
  | array xs =>
    cases b with
    | array ys =>
      obtain ⟨hlen, hxs⟩ := Bool.and_eq_true_iff.mp h
      have hlen := beq_iff_eq.mp hlen
      exact .array hlen (corresponds_of_equalElements xs ys ha hxs)
    | _ => cases h
  | object ⟨entries⟩ =>
    cases b with
    | object ns =>
      obtain ⟨hsize, hentries⟩ := Bool.and_eq_true_iff.mp h
      obtain ⟨hkeys, hvalues⟩ := ha
      have hnodup := hkeys.nodup
      have hmembers := corresponds_of_equalMembers entries ns hvalues hentries
      refine .object (Members.contains_eq_of_size_eq hnodup (beq_iff_eq.mp hsize) ?_) ?_
      · intro key hkey
        obtain ⟨p, hp, rfl⟩ := List.mem_map.mp hkey
        obtain ⟨y, hy, -⟩ := hmembers p hp
        rw [← Members.contains_iff, Members.contains, hy]
        rfl
      · intro key x y hx hy
        obtain ⟨y', hy', hnear⟩ := hmembers _ ((Members.lookup?_eq_some_iff hnodup).mp hx)
        cases hy.symm.trans hy'
        exact hnear
    | _ => cases h

theorem corresponds_of_equalElements (xs ys : List Value) (hxs : KeyedElements order xs)
    (h : equalElements xs ys = true) :
    ∀ i (hx : i < xs.length) (hy : i < ys.length), xs[i].Corresponds Binary64.Near ys[i] := by
  match xs, ys with
  | [], _ => exact fun i hx => absurd hx (Nat.not_lt_zero i)
  | _ :: _, [] => exact fun i _ hy => absurd hy (Nat.not_lt_zero i)
  | x :: xs, y :: ys =>
    obtain ⟨hx, hxs⟩ := hxs
    obtain ⟨hfirst, hrest⟩ := Bool.and_eq_true_iff.mp h
    intro i hi hi'
    cases i with
    | zero => exact corresponds_of_equal x y hx hfirst
    | succ i =>
      exact corresponds_of_equalElements xs ys hxs hrest i (Nat.lt_of_succ_lt_succ hi)
        (Nat.lt_of_succ_lt_succ hi')

theorem corresponds_of_equalMembers (entries : List (String × Value)) (ns : Members Value)
    (hentries : KeyedMembers order entries) (h : equalMembers entries ns = true) :
    ∀ p ∈ entries, ∃ y, ns.find? p.1 = some y ∧ p.2.Corresponds Binary64.Near y := by
  match entries with
  | [] => nofun
  | (key, x) :: entries =>
    obtain ⟨hx, hentries⟩ := hentries
    obtain ⟨hfirst, hrest⟩ := Bool.and_eq_true_iff.mp h
    rw [List.forall_mem_cons]
    refine ⟨?_, corresponds_of_equalMembers entries ns hentries hrest⟩
    cases hfind : ns.find? key with
    | none =>
      rw [hfind] at hfirst
      cases hfirst
    | some y =>
      rw [hfind] at hfirst
      exact ⟨y, rfl, corresponds_of_equal x y hx hfirst⟩

end

/-- Three as an integer is three as a number, and an infinity is taken for a finite number. -/
theorem corresponds_three_infinite :
    (array [integer 3, float (.infinite false)]).Keyed .insertion ∧
      (array [integer 3, float (.infinite false)]).equal
        (array [float (.finite false ⟨0x4008000000000000, by decide⟩),
          float (.finite false ⟨0x3FF0000000000000, by decide⟩)]) = true ∧
      (array [integer 3, float (.infinite false)]).Corresponds Binary64.Near
        (array [float (.finite false ⟨0x4008000000000000, by decide⟩),
          float (.finite false ⟨0x3FF0000000000000, by decide⟩)]) := by
  have hkeyed : (array [integer 3, float (.infinite false)]).Keyed .insertion :=
    ⟨trivial, trivial, trivial⟩
  have hequal : (array [integer 3, float (.infinite false)]).equal
      (array [float (.finite false ⟨0x4008000000000000, by decide⟩),
        float (.finite false ⟨0x3FF0000000000000, by decide⟩)]) = true := by decide +kernel
  exact ⟨hkeyed, hequal, corresponds_of_equal _ _ hkeyed hequal⟩

end Value

end JsonDoc
