import JsonDoc.Proofs.Document.Depth
import JsonDoc.Proofs.Document.Traced
import JsonDoc.Proofs.Value.Mirrored
import JsonDoc.Value.Convert

/-!
# Objects are maps that remember their order

A value begins as null, is read from a text, or is collected from elements or from pairs (`Origin`),
and is then changed by commands.  Every object that is in it at any time has the members that its
history tells: what was stored under each key last and not erased since, in the order in which the
keys arrived or in their own (`Members.Follows`, `Origin.follows_history`).
-/

namespace JsonDoc

open Traced (Tells)

variable {α β : Type} {order : MemberOrder}

/-! ### Where values come from -/

/-- How a value begins. -/
inductive Origin (α : Type) where
  | null
  /-- A text that is read with a limit or without one. -/
  | text (maxDepth : Option ℕ) (s : String)
  | elements (xs : List α)
  | pairs (ps : List (String × α))
  deriving DecidableEq, Repr

namespace Origin

/-- The origin with the values it is given made others. -/
def map (f : α → β) : Origin α → Origin β
  | null => null
  | text maxDepth s => text maxDepth s
  | elements xs => elements (xs.map f)
  | pairs ps => pairs (ps.map fun (key, x) => (key, f x))

/-- The value that begins so. -/
def make (order : MemberOrder) : Origin Value → Except ParseError Value
  | null => .ok .null
  | text maxDepth s => Document.parseSource ⟨order, maxDepth⟩ s.toList
  | elements xs => .ok (.array xs)
  | pairs ps => .ok (.ofPairs order ps)

/-- The traced value begins so. -/
inductive Makes : Origin Traced → Traced → Prop
  | null : Makes null .null
  | text {maxDepth : Option ℕ} {s : String} {t : Traced} (h : TracesElement s.toList t) :
      Makes (text maxDepth s) t
  | elements (ts : List Traced) : Makes (elements ts) (.array ts)
  | pairs (ps : List (String × Traced)) : Makes (pairs ps) (.object (History.ofPairs ps))

end Origin

/-- A value with what happened to its objects. -/
structure Told (order : MemberOrder) where
  traced : Traced
  value : Value
  tells : Tells order traced value

/-- A text that is read with a limit is read without one. -/
theorem Document.parse_of_parseSource {maxDepth : Option ℕ} {s : String} {v : Value}
    (h : Document.parseSource ⟨order, maxDepth⟩ s.toList = .ok v) :
    Document.parse order s = .ok v := by
  cases maxDepth with
  | none => exact h
  | some most => exact (Document.parse_limited_eq_ok_iff.mp h).1

/-- A value that begins is told by a traced value that begins in the same way. -/
theorem Origin.exists_makes (origin : Origin (Told order)) {v : Value}
    (h : (origin.map Told.value).make order = .ok v) :
    ∃ t, (origin.map Told.traced).Makes t ∧ Tells order t v := by
  cases origin with
  | null =>
    cases h
    exact ⟨_, .null, .null⟩
  | text maxDepth s =>
    obtain ⟨t, ht, htells⟩ :=
      (Document.accepts_of_parse (Document.parse_of_parseSource h)).exists_traces
    exact ⟨t, .text ht, htells⟩
  | elements xs =>
    cases h
    refine ⟨_, .elements _, .array ?_⟩
    exact List.forall₂_map_left_iff.mpr (List.forall₂_map_right_iff.mpr
      (List.forall₂_same.mpr fun x _ => x.tells))
  | pairs ps =>
    cases h
    refine ⟨_, .pairs _, Traced.tells_ofPairs ?_⟩
    exact List.forall₂_map_left_iff.mpr (List.forall₂_map_right_iff.mpr
      (List.forall₂_same.mpr fun p _ => ⟨rfl, p.2.tells⟩))

/-! ### What is true of an object -/

/-- The members are a map of keys to what was stored under them last, and stand in the order of
their arrival or of their keys. -/
structure Members.Follows (order : MemberOrder) (h : History Traced) (m : Members Value) :
    Prop where
  /-- A key that arrives goes to the end and keeps its place until it is erased, unless the keys are
  kept in their own order. -/
  keys_eq : m.keys = h.keys order
  nodup : m.keys.Nodup
  /-- Iteration is by the keys. -/
  items_eq : (Value.object m).items.map (List.map Prod.fst) = .ok (m.keys.map some)
  size_eq : (Value.object m).size = .ok m.keys.length
  found : ∀ key, Option.Rel (Tells order) (h.latest? key) (m.find? key)
  arrived : order = .insertion → m.keys.Pairwise fun k l => h.arrival k < h.arrival l
  sorted : order = .byKey → m.keys.Pairwise (· < ·)

theorem Traced.Tells.follows {h : List (Event Traced)} {m : Members Value}
    (ht : Tells order (.object h) (.object m)) : m.Follows order h where
  keys_eq := ht.keys_eq
  nodup := ht.wellKeyed.nodup
  items_eq := by simp [Value.items, Except.map, Members.keys, Function.comp_def]
  size_eq := by simp [Value.size, Value.items, Except.map, Members.keys]
  found := ht.found
  arrived := by
    rintro rfl
    rw [ht.keys_eq]
    exact History.pairwise_arrivals h
  sorted := by
    rintro rfl
    exact ht.wellKeyed

/-! ### Edits of a part that is there -/

/-- An edit that succeeds on the part that a path leads to succeeds along the path. -/
theorem Edit.exists_along {ε : Type} {fault : PathStep → Error → ε} {path : List PathStep}
    {edit : Edit ε α} {v x y : Value} {a : α} (hfollow : v.follow fault path = .ok x)
    (hedit : edit x = .ok a y) : ∃ w, along order fault path edit v = .ok a w := by
  induction path generalizing v with
  | nil =>
    cases hfollow
    exact ⟨y, hedit⟩
  | cons s path ih =>
    rw [Value.follow_cons] at hfollow
    cases hpart : v.part s with
    | error e =>
      rw [hpart] at hfollow
      cases hfollow
    | ok u =>
      rw [hpart] at hfollow
      obtain ⟨w, hw⟩ := ih hfollow
      cases s with
      | key key =>
        obtain ⟨m, rfl, hm⟩ := Value.exists_of_part_key hpart
        simp only [along_cons, step, member, Value.orObject, Members.findOrInsert, hm, hw, putBack]
        exact ⟨_, rfl⟩
      | index index =>
        obtain ⟨xs, rfl, hx⟩ := Value.exists_of_part_index hpart
        have hlt : index < xs.length := (List.getElem?_eq_some_iff.mp hx).1
        have hextend : Elements.extendTo (index + 1) .null xs = xs := by
          rw [Elements.extendTo, Nat.sub_eq_zero_of_le hlt, List.replicate_zero, List.append_nil]
        have hget : xs.getD index .null = u := by
          rw [List.getD_eq_getElem?_getD, hx, Option.getD_some]
        simp only [along_cons, step, element, Value.orArray, hextend, hget, hw, putBack]
        exact ⟨_, rfl⟩

/-! ### Runs -/

/-- Finding, storing and erasing a key of an object that is there come to the value under it. -/
theorem Command.exists_found {m : Members Value} {v : Value} {asserted : Bool}
    {path : List PathStep} (hm : m.WellKeyed order)
    (hfollow : v.follow (Fault.ofStep asserted) path = .ok (.object m)) (key : String) :
    (⟨path, asserted, .query (.find key)⟩ : Command Value).run order v =
        .ok (.found (m.find? key)) v ∧
      (∀ x, ∃ w, (⟨path, asserted, .change (.insert key x)⟩ : Command Value).run order v =
        .ok (.found (m.find? key)) w) ∧
      ∃ w, (⟨path, asserted, .change (.eraseKey key)⟩ : Command Value).run order v =
        .ok (.found (m.find? key)) w := by
  refine ⟨?_, fun x => Edit.exists_along (y := .object (m.insert order key x).2) hfollow ?_,
    Edit.exists_along (y := .object (m.erase key).2) hfollow ?_⟩
  · simp only [Command.run, hfollow]
    rfl
  · rw [← hm.fst_insert key x]
    rfl
  · rw [← Members.fst_erase]
    rfl

/-- Every object that is in a value at any time follows its history: the one that the origin of the
value and the commands up to then add to in the same way as they change the value. -/
theorem Origin.follows_history (origin : Origin (Told order)) {v : Value}
    (h : (origin.map Told.value).make order = .ok v) :
    ∃ t, (origin.map Told.traced).Makes t ∧ ∀ commands : List (Command (Told order)),
      let traced := Command.traceAll order (commands.map (Command.map Told.traced)) t
      let run := Command.runAll order (commands.map (Command.map Told.value)) v
      List.Forall₂ (SameOutcome (Reply.Rel (Tells order))) traced.1 run.1 ∧
      ∀ path asserted m, run.2.follow (Fault.ofStep asserted) path = .ok (.object m) →
        (∃ history, traced.2.follow (Fault.ofStep asserted) path = .ok (.object history) ∧
          m.Follows order history) ∧
        ∀ key,
          (⟨path, asserted, .query (.find key)⟩ : Command Value).run order run.2 =
            .ok (.found (m.find? key)) run.2 ∧
          (∀ x, ∃ w, (⟨path, asserted, .change (.insert key x)⟩ : Command Value).run order run.2 =
            .ok (.found (m.find? key)) w) ∧
          ∃ w, (⟨path, asserted, .change (.eraseKey key)⟩ : Command Value).run order run.2 =
            .ok (.found (m.find? key)) w := by
  obtain ⟨t, ht, htells⟩ := origin.exists_makes h
  refine ⟨t, ht, fun commands => ?_⟩
  obtain ⟨houtcomes, hrun⟩ := Command.mirrors_runAll commands Told.tells htells
  refine ⟨houtcomes, fun path asserted m hm => ?_⟩
  have hfollow := hrun.follow (Fault.ofStep asserted) path
  rw [hm] at hfollow
  generalize Traced.follow _ path _ = r at hfollow ⊢
  cases hfollow with
  | ok hobject =>
    cases hobject with
    | object keys_eq found =>
      have hobject := Tells.object keys_eq found
      exact ⟨⟨_, rfl, hobject.follows⟩, Command.exists_found hobject.wellKeyed hm⟩

/-- A key that was erased and stored again stands behind the other. -/
theorem Origin.follows_history_erased :
    let origin : Origin (Told .insertion) :=
      .pairs [("b", ⟨.null, .null, .null⟩), ("a", ⟨.bool true, .bool true, .bool true⟩)]
    let commands : List (Command (Told .insertion)) :=
      [⟨[], false, .change (.eraseKey "b")⟩,
        ⟨[], false, .change (.insert "b" ⟨.integer 1, .integer 1, .integer 1⟩)⟩]
    ((origin.map Told.value).make .insertion =
        .ok (.object ⟨[("b", .null), ("a", .bool true)]⟩)) ∧
      ∃ t, (origin.map Told.traced).Makes t ∧ ∃ history,
        (Command.traceAll .insertion (commands.map (Command.map Told.traced)) t).2 =
          .object history ∧
        Members.Follows .insertion history ⟨[("a", .bool true), ("b", .integer 1)]⟩ := by
  intro origin commands
  have hmake : (origin.map Told.value).make .insertion =
      .ok (.object ⟨[("b", .null), ("a", .bool true)]⟩) := rfl
  obtain ⟨t, ht, hall⟩ := Origin.follows_history origin hmake
  obtain ⟨⟨history, hfollow, hm⟩, -⟩ := (hall commands).2 [] false _ rfl
  exact ⟨hmake, t, ht, history, Except.ok.inj hfollow, hm⟩

end JsonDoc
