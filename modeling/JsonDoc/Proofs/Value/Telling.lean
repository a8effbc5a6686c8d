import JsonDoc.Proofs.Elements
import JsonDoc.Proofs.Value.Parts
import JsonDoc.Proofs.Value.Traced

/-!
# What a history tells

A traced value tells one value (`Traced.Tells.unique`).  What is stored or erased is told by the
history with that event (`Traced.Tells.insert`, `Traced.Tells.erase`), and the parts and items of a
value are told by those of the traced one.
-/

namespace JsonDoc.Traced

variable {α ε : Type} {order : MemberOrder} {t : Traced} {v w : Value}

/-! ### Members -/

variable {h : List (Event Traced)} {m : Members Value} {key : String} {x : Traced} {y : Value}

theorem Tells.keys_eq (ht : Tells order (.object h) (.object m)) :
    m.keys = History.keys order h := by
  cases ht with
  | object keys_eq found => exact keys_eq

theorem Tells.found (ht : Tells order (.object h) (.object m)) (key : String) :
    Option.Rel (Tells order) (History.latest? key h) (m.find? key) := by
  cases ht with
  | object keys_eq found => exact found key

theorem Tells.wellKeyed (ht : Tells order (.object h) (.object m)) : m.WellKeyed order := by
  cases order with
  | insertion => exact (congrArg List.Nodup ht.keys_eq).mpr (History.nodup_keys .insertion h)
  | byKey =>
    exact (congrArg (List.Pairwise (· < ·)) ht.keys_eq).mpr (History.pairwise_keys_byKey h)

/-- What a member has is what was stored under its key last. -/
theorem Tells.exists_latest (ht : Tells order (.object h) (.object m)) {p : String × Value}
    (hp : p ∈ m.entries) : ∃ x, History.latest? p.1 h = some x ∧ Tells order x p.2 := by
  have hrel := ht.found p.1
  rw [Members.find?, (Members.lookup?_eq_some_iff ht.wellKeyed.nodup).mpr hp] at hrel
  generalize History.latest? p.1 h = x? at hrel ⊢
  cases hrel with
  | some hxy => exact ⟨_, rfl, hxy⟩

/-- What tells the keys and the values under them tells the members. -/
theorem tells_object (hwell : m.WellKeyed order)
    (hkeys : order = .insertion → m.keys = History.arrivals h)
    (found : ∀ key, Option.Rel (Tells order) (History.latest? key h) (m.find? key)) :
    Tells order (object h) (.object m) := by
  refine .object ?_ found
  cases order with
  | insertion => exact hkeys rfl
  | byKey =>
    refine History.eq_keys_byKey hwell fun key => ?_
    rw [isSome_eq_of_rel (found key), Option.isSome_iff_ne_none, ne_eq, Members.find?_eq_none_iff,
      not_not]

theorem tells_empty (order : MemberOrder) : Tells order (object []) (.object .empty) :=
  tells_object (Members.wellKeyed_empty order) (fun _ => rfl) fun _ => .none

theorem Tells.insert (ht : Tells order (.object h) (.object m)) (hx : Tells order x y)
    (key : String) :
    Tells order (.object (.store key x :: h)) (.object (m.insert order key y).2) := by
  refine tells_object (ht.wellKeyed.insert key y) ?_ fun k => ?_
  · rintro rfl
    have hkeys : m.keys = History.arrivals h := ht.keys_eq
    simp only [Members.keys_insert_insertion, History.arrivals, hkeys, History.mem_arrivals_iff]
  · rw [Members.find?_insert, History.latest?_store]
    split
    · exact .some hx
    · exact ht.found k

theorem Tells.erase (ht : Tells order (.object h) (.object m)) (key : String) :
    Tells order (.object (.erase key :: h)) (.object (m.erase key).2) := by
  refine tells_object (ht.wellKeyed.erase key) ?_ fun k => ?_
  · rintro rfl
    have hkeys : m.keys = History.arrivals h := ht.keys_eq
    rw [Members.keys_erase, hkeys, History.arrivals]
  · rw [Members.find?_erase ht.wellKeyed.nodup, History.latest?_erase]
    split
    · exact .none
    · exact ht.found k

/-- Members of the same key, of which the first tells the second. -/
def TellsMember (order : MemberOrder) (p : String × Traced) (q : String × Value) : Prop :=
  p.1 = q.1 ∧ Tells order p.2 q.2

/-- Values that are stored one after another tell the members of a list. -/
theorem tells_ofPairs {ps : List (String × Traced)} {qs : List (String × Value)}
    (h : List.Forall₂ (TellsMember order) ps qs) :
    Tells order (.object (History.ofPairs ps)) (.object (.ofList order qs)) := by
  refine List.rel_foldl (P := fun h m => Tells order (.object h) (.object m))
    (fun _ _ hobject p q hpq => ?_) (tells_empty order) h
  obtain ⟨k, x⟩ := p
  obtain ⟨l, y⟩ := q
  obtain ⟨rfl, hxy⟩ := hpq
  exact hobject.insert hxy k

/-! ### One value -/

/-- A history tells no two values. -/
theorem Tells.unique (h : Tells order t v) (h' : Tells order t w) : w = v := by
  induction v using Value.induction generalizing t w with
  | array xs ih =>
    cases h with
    | array hxs =>
      cases h' with
      | array hys =>
        have heq := eq_map_of_forall₂ (f := id) hxs hys fun t x hx y hxt hyt => ih x hx hxt hyt
        rw [heq, List.map_id]
  | object m ih =>
    cases h with
    | object keys_eq found =>
      have hobject := Tells.object keys_eq found
      cases h' with
      | object keys_eq' found' =>
        refine congrArg Value.object (Members.eq_of_keys_eq (keys_eq'.trans keys_eq.symm)
          (Tells.object keys_eq' found').wellKeyed.nodup fun key => ?_)
        have heq := eq_map_of_rel (f := id) (found key) (found' key) fun t x hx y hxt hyt =>
          ih (key, x) (Members.mem_of_find? hx) hxt hyt
        rw [heq, Option.map_id_apply]
  | _ =>
    cases h
    cases h'
    rfl

/-! ### Places -/

theorem Tells.kind_eq (ht : Tells order t v) : t.kind = v.kind := by
  cases ht <;> rfl

theorem Tells.orArray (ht : Tells order t v) : Tells order t.orArray v.orArray := by
  cases ht with
  | null => exact .array .nil
  | array h => exact .array h
  | object keys_eq found => exact .object keys_eq found
  | _ => constructor

theorem Tells.orObject (ht : Tells order t v) : Tells order t.orObject v.orObject := by
  cases ht with
  | null => exact tells_empty order
  | array h => exact .array h
  | object keys_eq found => exact .object keys_eq found
  | _ => constructor

theorem tells_ofKind (k : Kind) : Tells order (ofKind k) (.ofKind k) := by
  cases k with
  | array => exact .array .nil
  | object => exact tells_empty order
  | _ => constructor

/-! ### Parts -/

/-- A part that is there in both or missing in both. -/
theorem sameOutcome_part {x? : Option Traced} {y? : Option Value} (e : Error) :
    Option.Rel (Tells order) x? y? → SameOutcome (Tells order)
      (match x? with
        | some x => .ok x
        | none => .error e)
      (match y? with
        | some y => .ok y
        | none => .error e) := by
  intro h
  cases h with
  | some h => exact .ok h
  | none => exact .error e

theorem Tells.element (ht : Tells order t v) (index : ℕ) :
    SameOutcome (Tells order) (t.element index) (v.element index) := by
  cases ht with
  | array hxs => exact sameOutcome_part .invalidKey (rel_getElem? hxs index)
  | _ => exact .error _

theorem Tells.find? (ht : Tells order t v) (key : String) :
    SameOutcome (Option.Rel (Tells order)) (t.find? key) (v.find? key) := by
  cases ht with
  | object keys_eq found => exact .ok (found key)
  | _ => exact .error _

theorem Tells.member (ht : Tells order t v) (key : String) :
    SameOutcome (Tells order) (t.member key) (v.member key) := by
  cases ht with
  | object keys_eq found => exact sameOutcome_part .invalidKey (found key)
  | _ => exact .error _

theorem Tells.size (ht : Tells order t v) : SameOutcome (· = ·) t.size v.size := by
  cases ht with
  | array hxs =>
    simp only [Traced.size, Value.size, Value.items, Except.map, List.length_map, hxs.length_eq]
    exact .ok rfl
  | @object history m keys_eq found =>
    have hlength : (History.arrivals history).length = m.entries.length := by
      rw [← (History.perm_keys order history).length_eq, ← keys_eq, Members.keys, List.length_map]
    simp only [Traced.size, Value.size, Value.items, Except.map, List.length_map, hlength]
    exact .ok rfl
  | _ => exact .error _

theorem Tells.follow (ht : Tells order t v) (fault : PathStep → Error → ε)
    (path : List PathStep) :
    SameOutcome (Tells order) (t.follow fault path) (v.follow fault path) := by
  induction path generalizing t v with
  | nil => exact .ok ht
  | cons s path ih =>
    have hpart : SameOutcome (Tells order) (t.part s) (v.part s) := by
      cases s with
      | key key => exact ht.member key
      | index index => exact ht.element index
    exact (hpart.mapError (fault s)).bind fun _ _ h => ih h

/-! ### Items -/

/-- The items that two containers have in common by a relation. -/
abbrev SameItems (order : MemberOrder) :
    List (Option String × Traced) → List (Option String × Value) → Prop :=
  List.Forall₂ fun p q => p.1 = q.1 ∧ Tells order p.2 q.2

theorem sameItems_object {h : List (Event Traced)} {m : Members Value}
    (ht : Tells order (object h) (.object m)) :
    SameItems order
      ((History.keys order h).filterMap fun key =>
        (History.latest? key h).map fun x => (some key, x))
      (m.entries.map fun (key, x) => (some key, x)) := by
  have hentries := fun p hp => ht.exists_latest (p := p) hp
  rw [← ht.keys_eq, Members.keys]
  generalize m.entries = entries at hentries
  induction entries with
  | nil => exact .nil
  | cons p entries ih =>
    obtain ⟨x, hx, hxy⟩ := hentries p List.mem_cons_self
    rw [List.map_cons, List.filterMap_cons, hx]
    exact .cons ⟨rfl, hxy⟩ (ih fun q hq => hentries q (List.mem_cons_of_mem _ hq))

theorem Tells.items (ht : Tells order t v) :
    SameOutcome (SameItems order) (t.items order) v.items := by
  cases ht with
  | array hxs =>
    refine .ok (List.forall₂_map_left_iff.mpr (List.forall₂_map_right_iff.mpr ?_))
    exact hxs.imp fun x y hxy => ⟨rfl, hxy⟩
  | object keys_eq found => exact .ok (sameItems_object (.object keys_eq found))
  | _ => exact .error _

/-- A value in place of an item of a container is one in place of the same item that is traced. -/
theorem Tells.assignItem (ht : Tells order t v) {x : Traced} {y : Value} (hxy : Tells order x y)
    (position : ℕ) (hall : ∃ all, v.items = .ok all) :
    ∃ w, Edit.assignItem position y v = .ok () w ∧ (∃ all, w.items = .ok all) ∧
      Tells order (Traced.assignItem order t position x) w := by
  cases ht with
  | array hxs => exact ⟨_, rfl, ⟨_, rfl⟩, .array (forall₂_set hxs position hxy)⟩
  | object keys_eq found =>
    have hobject := Tells.object keys_eq found
    refine ⟨_, rfl, ⟨_, rfl⟩, ?_⟩
    rw [Traced.assignItem, ← keys_eq]
    split
    case h_1 key hkey =>
      rw [hobject.wellKeyed.setAt_eq_insert hkey]
      exact hobject.insert hxy key
    case h_2 hkey =>
      rw [Members.setAt_eq_self hkey]
      exact hobject
  | _ =>
    obtain ⟨all, hall⟩ := hall
    cases hall

theorem Tells.assignItems {f : α → Traced} {g : α → Value} (writes : List (ℕ × α))
    (hfg : ∀ a, Tells order (f a) (g a)) (ht : Tells order t v) (hall : ∃ all, v.items = .ok all) :
    ∃ w, Edit.assignItems (writes.map fun (position, x) => (position, g x)) v = .ok () w ∧
      Tells order ((writes.map fun (position, x) => (position, f x)).foldl
        (fun t (position, x) => Traced.assignItem order t position x) t) w := by
  induction writes generalizing t v with
  | nil => exact ⟨v, rfl, ht⟩
  | cons write writes ih =>
    obtain ⟨w, hw, hall', ht'⟩ := ht.assignItem (hfg write.2) write.1 hall
    obtain ⟨u, hu, htu⟩ := ih ht' hall'
    refine ⟨u, ?_, htu⟩
    simp only [List.map_cons, Edit.assignItems, bind, EStateM.bind, hw]
    exact hu

end JsonDoc.Traced
