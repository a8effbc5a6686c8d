import JsonDoc.Proofs.Document.Sort
import JsonDoc.Proofs.Value.Mirrored

/-!
# The order of members changes nothing else

A history tells one value for each order of the members (`Traced.Tells.unique`), and what it tells
in the order of the keys is what it tells in the order of arrival, sorted (`Traced.Tells.sort`).  So
reading, and every operation but going through the items of an object, comes to the same for both
orders up to sorting, and leaves values that are the same up to sorting (`byKey_sorts`).
-/

namespace JsonDoc

open Traced (Tells)

variable {α β γ ε : Type} {order : MemberOrder} {t : Traced} {v w : Value}

namespace Traced

/-! ### Histories of one value -/

/-- Every value whose objects are in order has a history. -/
theorem exists_tells (h : v.Keyed order) : ∃ t, Tells order t v := by
  induction v using Value.induction with
  | null => exact ⟨_, .null⟩
  | bool b => exact ⟨_, .bool b⟩
  | integer i => exact ⟨_, .integer i⟩
  | float x => exact ⟨_, .float x⟩
  | string s => exact ⟨_, .string s⟩
  | array xs ih =>
    obtain ⟨ts, hts⟩ := exists_forall₂ fun x hx => ih x hx (Value.keyed_array_iff.mp h x hx)
    exact ⟨_, .array hts⟩
  | object m ih =>
    obtain ⟨hm, hentries⟩ := Value.keyed_object_iff.mp h
    obtain ⟨ps, hps⟩ : ∃ ps, List.Forall₂ (TellsMember order) ps m.entries :=
      exists_forall₂ fun q hq =>
        let ⟨t, ht⟩ := ih q hq (hentries q hq)
        ⟨(q.1, t), rfl, ht⟩
    have htells := tells_ofPairs hps
    rw [← Members.collects_iff.mp (Members.collects_entries hm)] at htells
    exact ⟨_, htells⟩

/-- The objects of a value that is told are in order. -/
theorem Tells.keyed (h : Tells order t v) : v.Keyed order := by
  induction v using Value.induction generalizing t with
  | array xs ih =>
    cases h with
    | array hxs =>
      refine Value.keyed_array_iff.mpr fun x hx => ?_
      obtain ⟨t, -, ht⟩ := exists_mem_of_forall₂ hxs.flip hx
      exact ih x hx ht
  | object m ih =>
    cases h with
    | object keys_eq found =>
      have hobject := Tells.object keys_eq found
      refine Value.keyed_object_iff.mpr ⟨hobject.wellKeyed, fun p hp => ?_⟩
      obtain ⟨x, -, hxy⟩ := hobject.exists_latest hp
      exact ih p hp hxy
  | _ => trivial

/-- What is told in the order of arrival is told in the order of the keys once it is sorted. -/
theorem Tells.sort (h : Tells .insertion t v) : Tells .byKey t v.sort := by
  induction v using Value.induction generalizing t with
  | array xs ih =>
    cases h with
    | array hxs =>
      rw [Value.sort_array]
      refine .array (List.forall₂_map_right_iff.mpr ?_)
      exact forall₂_imp_of_mem hxs fun _ _ x hx hxt => ih x hx hxt
  | object m ih =>
    cases h with
    | @object history m keys_eq found =>
      have hnodup : m.keys.Nodup := (Tells.object keys_eq found).wellKeyed.nodup
      have hmap : (m.map Value.sort).keys.Nodup := by rwa [Members.keys_map]
      rw [Value.sort_object]
      refine tells_object (Members.wellKeyed_sorted hmap) nofun fun key => ?_
      rw [Members.find?_sorted hmap, Members.find?_map]
      have hfound := found key
      generalize History.latest? key history = x? at hfound ⊢
      cases hy : m.find? key with
      | none =>
        rw [hy] at hfound
        cases hfound
        exact .none
      | some y =>
        rw [hy] at hfound
        cases hfound with
        | some hxy => exact .some (ih (key, y) (Members.mem_of_find? hy) hxy)
  | _ =>
    cases h
    constructor

theorem Tells.eq_sort (h : Tells .insertion t v) (h' : Tells .byKey t w) : w = v.sort :=
  h.sort.unique h'

end Traced

/-- A sorted value is one whose members are kept in the order of their keys. -/
theorem Value.keyed_sort (h : v.Keyed .insertion) : v.sort.Keyed .byKey := by
  obtain ⟨t, ht⟩ := Traced.exists_tells h
  exact ht.sort.keyed

/-! ### Operations that do not go through the items -/

section

variable {R : α → β → Prop} {S : α → γ → Prop} {f : β → γ}

theorem Reply.Rel.eq_map {a : Reply α} {b : Reply β} {c : Reply γ} (h : Rel R a b)
    (h' : Rel S a c) (heq : ∀ x y z, R x y → S x z → z = f y) : c = b.map f := by
  cases h with
  | done =>
    cases h'
    rfl
  | value hxy =>
    cases h' with
    | value hxz => rw [heq _ _ _ hxy hxz, map]
  | found hxy =>
    cases h' with
    | found hxz => rw [map, eq_map_of_rel hxy hxz fun x y _ z => heq x y z]
  | items hxy =>
    cases h' with
    | items hxz =>
      rw [map]
      refine congrArg Reply.items (eq_map_of_forall₂ hxy hxz fun p q _ r hq hr => ?_)
      exact Prod.ext (hr.1.symm.trans hq.1) (heq _ _ _ hq.2 hr.2)
  | count n =>
    cases h'
    rfl

theorem SameOutcome.eq_map {a : Except ε α} {b : Except ε β} {c : Except ε γ}
    (h : SameOutcome R a b) (h' : SameOutcome S a c) (heq : ∀ x y z, R x y → S x z → z = f y) :
    c = b.map f := by
  cases h with
  | ok hxy =>
    cases h' with
    | ok hxz => rw [heq _ _ _ hxy hxz, Except.map]
  | error e =>
    cases h'
    rfl

end

namespace Command

/-- A command that does not go through the items adds to the histories what it does in every order
of the members. -/
theorem trace_eq (order order' : MemberOrder) {c : Command Traced}
    (h : c.action.isVisit = false) : c.trace order = c.trace order' := by
  obtain ⟨path, asserted, action⟩ := c
  cases action with
  | query q => rfl
  | change x => rfl
  | visit writes => cases h

theorem traceAll_eq (order order' : MemberOrder) {commands : List (Command Traced)}
    (h : ∀ c ∈ commands, c.action.isVisit = false) (t : Traced) :
    traceAll order commands t = traceAll order' commands t := by
  induction commands generalizing t with
  | nil => rfl
  | cons c commands ih =>
    have hrest := ih fun d hd => h d (List.mem_cons_of_mem _ hd)
    rw [traceAll, traceAll, trace_eq order order' (h c List.mem_cons_self)]
    split <;> rw [hrest]

end Command

/-- A value whose objects have each of their keys once. -/
abbrev KeyedValue := { v : Value // v.Keyed .insertion }

/-- Commands that do not go through the items come to the same on a sorted value that is kept in the
order of the keys, up to sorting, and leave it the sorted one. -/
theorem Command.runAll_sort (v : KeyedValue) {commands : List (Command KeyedValue)}
    (h : ∀ c ∈ commands, c.action.isVisit = false) :
    let run := runAll .insertion (commands.map (map Subtype.val)) v.val
    runAll .byKey (commands.map (map fun x => x.val.sort)) v.val.sort =
      (run.1.map (Except.map (Reply.map Value.sort)), run.2.sort) := by
  intro run
  choose history hhistory using fun x : KeyedValue => Traced.exists_tells x.property
  obtain ⟨hreplies, hleft⟩ := mirrors_runAll commands hhistory (hhistory v)
  obtain ⟨hreplies', hleft'⟩ :=
    mirrors_runAll commands (fun x => (hhistory x).sort) (hhistory v).sort
  have htrace : ∀ c ∈ commands.map (map history), c.action.isVisit = false := by
    intro c hc
    obtain ⟨d, hd, rfl⟩ := List.mem_map.mp hc
    exact (Action.isVisit_map history d.action).trans (h d hd)
  rw [traceAll_eq .byKey .insertion htrace] at hreplies' hleft'
  refine Prod.ext ?_ (hleft.eq_sort hleft')
  exact eq_map_of_forall₂ hreplies hreplies' fun _ _ _ _ hr hr' =>
    hr.eq_map hr' fun _ _ _ hx hy => hx.eq_map hy fun _ _ _ hx hy => hx.eq_sort hy

/-- The order of the keys changes the order of members and nothing else: reading comes to the sorted
document or to the same error, and commands that do not go through the items come to the same on
sorted values, up to sorting. -/
theorem byKey_sorts :
    (∀ (σ : Type) [CharSource σ] (maxDepth : Option ℕ) (source : σ),
      Document.parseSource ⟨.byKey, maxDepth⟩ source =
        (Document.parseSource ⟨.insertion, maxDepth⟩ source).map Value.sort) ∧
    ∀ (v : KeyedValue) (commands : List (Command KeyedValue)),
      (∀ c ∈ commands, c.action.isVisit = false) →
      let run := Command.runAll .insertion (commands.map (Command.map Subtype.val)) v.val
      Command.runAll .byKey (commands.map (Command.map fun x => x.val.sort)) v.val.sort =
        (run.1.map (Except.map (Reply.map Value.sort)), run.2.sort) :=
  ⟨fun _ _ => Document.parseSource_byKey, fun v _ h => Command.runAll_sort v h⟩

/-- A member that is made along a path stands before the one that was there. -/
theorem byKey_sorts_made :
    let v : KeyedValue :=
      ⟨.object ⟨[("b", .bool true)]⟩, List.nodup_singleton "b", trivial, trivial⟩
    let commands : List (Command KeyedValue) :=
      [⟨[.key "a", .index 1], false, .change (.assign v)⟩, ⟨[], false, .change (.eraseKey "b")⟩]
    (∀ c ∈ commands, c.action.isVisit = false) ∧
      Command.runAll .byKey (commands.map (Command.map fun x => x.val.sort)) v.val.sort =
        ([.ok .done, .ok (.found (some (.bool true)))],
          .object ⟨[("a", .array [.null, .object ⟨[("b", .bool true)]⟩])]⟩) := by
  intro v commands
  have hvisit : ∀ c ∈ commands, c.action.isVisit = false := by decide
  exact ⟨hvisit, byKey_sorts.2 v commands hvisit⟩

end JsonDoc
