import JsonDoc.Proofs.Value.Telling

/-!
# Operations follow the histories

An operation on a value does what the same operation does on the traced value that tells it: both
come to the same, or fail with the same error, and what is left is told again (`Mirrors`).  This is
shown for each operation, is carried along a path, and from one command to a run of them
(`Command.mirrors_runAll`).
-/

namespace JsonDoc

open Traced (Tells)

variable {α β γ δ ε : Type}

/-- The replies are the same up to a relation of the values in them. -/
inductive Reply.Rel (R : α → β → Prop) : Reply α → Reply β → Prop
  | done : Rel R done done
  | value {x : α} {y : β} (h : R x y) : Rel R (value x) (value y)
  | found {x? : Option α} {y? : Option β} (h : Option.Rel R x? y?) : Rel R (found x?) (found y?)
  | items {xs : List (Option String × α)} {ys : List (Option String × β)}
      (h : List.Forall₂ (fun p q => p.1 = q.1 ∧ R p.2 q.2) xs ys) : Rel R (items xs) (items ys)
  | count (n : ℕ) : Rel R (count n) (count n)

/-- Both have the same outcome, and the value that is left is told by the traced one. -/
inductive SameResult (order : MemberOrder) (R : α → β → Prop) :
    EStateM.Result ε Traced α → EStateM.Result ε Value β → Prop
  | ok {a : α} {b : β} {t : Traced} {v : Value} (hab : R a b) (h : Tells order t v) :
      SameResult order R (.ok a t) (.ok b v)
  | error (e : ε) {t : Traced} {v : Value} (h : Tells order t v) :
      SameResult order R (.error e t) (.error e v)

/-- The edit does on every value what the trace does on the traced value that tells it. -/
def Mirrors (order : MemberOrder) (R : α → β → Prop) (trace : Trace ε α) (edit : Edit ε β) :
    Prop :=
  ∀ t v, Tells order t v → SameResult order R (trace t) (edit v)

variable {order : MemberOrder} {R : α → β → Prop} {t : Traced} {v : Value}

/-! ### Combinations of edits -/

namespace SameResult

theorem putBack {trace : EStateM.Result ε Traced α} {edit : EStateM.Result ε Value β}
    {part : Traced → Traced} {part' : Value → Value} (h : SameResult order R trace edit)
    (hpart : ∀ x y, Tells order x y → Tells order (part x) (part' y)) :
    SameResult order R (Traced.putBack part trace) (Edit.putBack part' edit) := by
  cases h with
  | ok hab h => exact .ok hab (hpart _ _ h)
  | error e h => exact .error e (hpart _ _ h)

/-- A use of the elements of an array, which fails with the kind of what is none. -/
theorem elements (e : Kind → ε)
    {f : List Traced → EStateM.Result ε Traced α} {g : List Value → EStateM.Result ε Value β}
    (h : ∀ ts xs, List.Forall₂ (Tells order) ts xs → SameResult order R (f ts) (g xs)) :
    Tells order t v → SameResult order R
      (match t with
        | .array ts => f ts
        | t => .error (e t.kind) t)
      (match v with
        | .array xs => g xs
        | v => .error (e v.kind) v) := by
  intro ht
  cases ht with
  | array hxs => exact h _ _ hxs
  | object keys_eq found => exact .error _ (.object keys_eq found)
  | _ => exact .error _ (by constructor)

/-- A use of the members of an object, which fails with the kind of what is none. -/
theorem members (e : Kind → ε)
    {f : List (Event Traced) → EStateM.Result ε Traced α}
    {g : Members Value → EStateM.Result ε Value β}
    (h : ∀ history m, Tells order (.object history) (.object m) →
      SameResult order R (f history) (g m)) :
    Tells order t v → SameResult order R
      (match t with
        | .object history => f history
        | t => .error (e t.kind) t)
      (match v with
        | .object m => g m
        | v => .error (e v.kind) v) := by
  intro ht
  cases ht with
  | object keys_eq found => exact h _ _ (.object keys_eq found)
  | array hxs => exact .error _ (.array hxs)
  | _ => exact .error _ (by constructor)

end SameResult

namespace Mirrors

variable {trace : Trace ε α} {edit : Edit ε β}

theorem mapError (h : Mirrors order R trace edit) (f : ε → δ) :
    Mirrors order R (trace.adaptExcept f) (edit.mapError f) := by
  intro t v ht
  have hr := h t v ht
  rw [EStateM.adaptExcept, Edit.mapError]
  generalize trace t = r at hr ⊢
  generalize edit v = r' at hr ⊢
  cases hr with
  | ok hab h => exact .ok hab h
  | error e h => exact .error (f e) h

theorem map {S : α → γ → Prop} (f : β → γ) (h : Mirrors order (fun a b => S a (f b)) trace edit) :
    Mirrors order S trace (f <$> edit) := by
  intro t v ht
  have hr := h t v ht
  simp only [Functor.map, EStateM.map]
  generalize trace t = r at hr ⊢
  generalize edit v = r' at hr ⊢
  cases hr with
  | ok hab h => exact .ok hab h
  | error e h => exact .error e h

theorem element (h : Mirrors order R trace edit) (fault : Error → ε) (index : ℕ) :
    Mirrors order R (Traced.atElement fault index trace) (Edit.element fault index edit) := by
  intro t v ht
  refine .elements (fun k => fault (.typeMismatch "array" k)) (fun ts xs hxs => ?_) ht.orArray
  have hextended := Elements.forall₂_extendTo hxs (index + 1) .null
  exact (h _ _ (rel_getD hextended index .null)).putBack fun x y hxy =>
    .array (forall₂_set hextended index hxy)

theorem member (h : Mirrors order R trace edit) (fault : Error → ε) (key : String) :
    Mirrors order R (Traced.atMember fault key trace) (Edit.member order fault key edit) := by
  intro t v ht
  refine .members (fun k => fault (.typeMismatch "object" k)) (fun history m hobject => ?_)
    ht.orObject
  have hfound := hobject.found key
  simp only [Members.findOrInsert]
  generalize History.latest? key history = x? at hfound ⊢
  generalize m.find? key = y? at hfound ⊢
  cases hfound with
  | some hxy => exact (h _ _ hxy).putBack fun x y hxy => hobject.insert hxy key
  | none => exact (h _ _ .null).putBack fun x y hxy => (hobject.insert .null key).insert hxy key

/-- What is done to the part that a path leads to. -/
theorem along (h : Mirrors order R trace edit) (fault : PathStep → Error → ε)
    (path : List PathStep) :
    Mirrors order R (Traced.along fault path trace) (Edit.along order fault path edit) := by
  induction path with
  | nil => exact h
  | cons s path ih =>
    cases s with
    | key key => exact ih.member _ key
    | index index => exact ih.element _ index

end Mirrors

/-! ### Changes -/

/-- A change does on every value what it does on the traced value that tells it. -/
abbrev Change.Mirrored (order : MemberOrder) (trace : Change Traced) (change : Change Value) :
    Prop :=
  Mirrors order (Reply.Rel (Tells order)) trace.trace (change.run order)

namespace Change

variable {x : Traced} {y : Value}

theorem mirrored_push (hxy : Tells order x y) : Mirrored order (push x) (push y) := by
  refine .map _ fun t v ht => ?_
  refine .elements (Error.typeMismatch "array") (fun ts xs hxs => ?_) ht.orArray
  exact .ok .done (.array (List.rel_append hxs (.cons hxy .nil)))

theorem mirrored_insertAt (hxy : Tells order x y) (index : ℕ) :
    Mirrored order (insertAt index x) (insertAt index y) := by
  refine .map _ fun t v ht => ?_
  refine .elements (Error.typeMismatch "array") (fun ts xs hxs => ?_) ht.orArray
  rw [hxs.length_eq]
  split
  · exact .ok .done (.array (Elements.forall₂_insertAt hxs index hxy))
  · exact .error _ (.array hxs)

/-- An index beyond the end removes nothing. -/
theorem eraseIndex_array (index : ℕ) (xs : List Value) :
    Edit.eraseIndex index (.array xs) =
      match xs[index]? with
      | some x => .ok x (.array (xs.eraseIdx index))
      | none => .error .invalidIterator (.array xs) := by
  simp only [Edit.eraseIndex, Edit.removeElement, Elements.removeAt]
  cases hx : xs[index]? with
  | some x => rfl
  | none => rw [List.eraseIdx_of_length_le (List.getElem?_eq_none_iff.mp hx)]

theorem mirrored_eraseIndex (index : ℕ) :
    Mirrored order (eraseIndex index) (eraseIndex index) := by
  refine .map _ fun t v ht => ?_
  cases ht with
  | @array ts xs hxs =>
    have hrel := rel_getElem? hxs index
    rw [eraseIndex_array, trace]
    generalize ts[index]? = a? at hrel ⊢
    generalize xs[index]? = b? at hrel ⊢
    cases hrel with
    | some hab => exact .ok (.value hab) (.array (forall₂_eraseIdx hxs index))
    | none => exact .error _ (.array hxs)
  | object keys_eq found => exact .error _ (.object keys_eq found)
  | _ => exact .error _ (by constructor)

theorem mirrored_eraseRange (start stop : ℕ) :
    Mirrored order (eraseRange start stop) (eraseRange start stop) := by
  refine .map _ fun t v ht => ?_
  refine .elements (Error.typeMismatch "array") (fun ts xs hxs => ?_) ht
  rw [hxs.length_eq]
  split
  · exact .ok .done (.array (Elements.forall₂_removeRange hxs start stop))
  · exact .error _ (.array hxs)

theorem mirrored_insert (hxy : Tells order x y) (key : String) :
    Mirrored order (insert key x) (insert key y) := by
  refine .map _ fun t v ht => ?_
  refine .members (Error.typeMismatch "object") (fun history m hobject => ?_) ht.orObject
  have hprior : Option.Rel (Tells order) (History.latest? key history) (m.insert order key y).1 :=
    hobject.wellKeyed.fst_insert key y ▸ hobject.found key
  exact .ok (.found hprior) (hobject.insert hxy key)

theorem mirrored_replace (hxy : Tells order x y) (key : String) :
    Mirrored order (replace key x) (replace key y) := by
  refine .map _ fun t v ht => ?_
  refine .members (Error.typeMismatch "object") (fun history m hobject => ?_) ht
  have hfound := hobject.found key
  generalize History.latest? key history = x? at hfound ⊢
  generalize m.find? key = y? at hfound ⊢
  cases hfound with
  | some hprior => exact .ok (.found (.some hprior)) (hobject.insert hxy key)
  | none => exact .ok (.found .none) hobject

theorem mirrored_eraseKey (key : String) : Mirrored order (eraseKey key) (eraseKey key) := by
  refine .map _ fun t v ht => ?_
  refine .members (fun _ => Error.invalidKey) (fun history m hobject => ?_) ht
  have hprior : Option.Rel (Tells order) (History.latest? key history) (m.erase key).1 :=
    Members.fst_erase key m ▸ hobject.found key
  exact .ok (.found hprior) (hobject.erase key)

variable {f : γ → Traced} {g : γ → Value}

/-- Each change does on a value what it does on the traced one, if this holds of what they are
given. -/
theorem mirrored (c : Change γ) (hfg : ∀ a, Tells order (f a) (g a)) :
    Mirrored order (c.map f) (c.map g) := by
  cases c with
  | read => exact fun t v ht => .ok (.value ht) ht
  | assign x => exact fun t v _ => .ok .done (hfg x)
  | clear =>
    intro t v ht
    rw [map, map, trace, ht.kind_eq]
    exact .ok .done (Traced.tells_ofKind v.kind)
  | take => exact fun t v ht => .ok (.value ht) .null
  | push x => exact mirrored_push (hfg x)
  | insertAt index x => exact mirrored_insertAt (hfg x) index
  | eraseIndex index => exact mirrored_eraseIndex index
  | eraseRange start stop => exact mirrored_eraseRange start stop
  | insert key x => exact mirrored_insert (hfg x) key
  | replace key x => exact mirrored_replace (hfg x) key
  | eraseKey key => exact mirrored_eraseKey key

end Change

/-! ### Visits -/

theorem mirrors_visit {f : γ → Traced} {g : γ → Value} (writes : List (ℕ × γ))
    (hfg : ∀ a, Tells order (f a) (g a)) :
    Mirrors order (Reply.Rel (Tells order))
      (Traced.visit order (writes.map fun (position, x) => (position, f x)))
      (Reply.items <$> Edit.visit (writes.map fun (position, x) => (position, g x))) := by
  refine .map _ fun t v ht => ?_
  have hitems := ht.items
  have hassign := ht.assignItems writes hfg
  simp only [Traced.visit, Edit.visit, Edit.items, bind, EStateM.bind]
  generalize t.items order = r at hitems ⊢
  generalize v.items = r' at hitems hassign ⊢
  cases hitems with
  | ok hsame =>
    obtain ⟨w, hw, htw⟩ := hassign ⟨_, rfl⟩
    simp only [hw]
    exact .ok (.items hsame) htw
  | error e => exact .error e ht

/-! ### Queries -/

theorem Query.sameOutcome (q : Query) (ht : Tells order t v) :
    SameOutcome (Reply.Rel (Tells order)) (q.trace t) (q.run v) := by
  cases q with
  | size =>
    refine ht.size.map ?_
    rintro n _ rfl
    exact .count n
  | element index => exact (ht.element index).map fun _ _ h => .value h
  | find key => exact (ht.find? key).map fun _ _ h => .found h

/-! ### Commands -/

namespace Command

variable {f : γ → Traced} {g : γ → Value}

/-- A command does on a value what it does on the traced one that tells it. -/
theorem mirrors_run (c : Command γ) (hfg : ∀ a, Tells order (f a) (g a)) :
    Mirrors order (Reply.Rel (Tells order)) ((c.map f).trace order) ((c.map g).run order) := by
  obtain ⟨path, asserted, action⟩ := c
  cases action with
  | query q =>
    intro t v ht
    have hr := (ht.follow (Fault.ofStep asserted) path).bind fun x y h =>
      (q.sameOutcome h).mapError Fault.error
    simp only [trace, run, map, Action.map]
    generalize (t.follow (Fault.ofStep asserted) path).bind _ = r at hr ⊢
    generalize (v.follow (Fault.ofStep asserted) path).bind _ = r' at hr ⊢
    cases hr with
    | ok hreply => exact .ok hreply ht
    | error e => exact .error e ht
  | change x => exact (x.mirrored hfg).mapError _ |>.along _ path
  | visit writes => exact (mirrors_visit writes hfg).mapError _ |>.along _ path

/-- So does a run of commands. -/
theorem mirrors_runAll (commands : List (Command γ)) (hfg : ∀ a, Tells order (f a) (g a))
    (ht : Tells order t v) :
    List.Forall₂ (SameOutcome (Reply.Rel (Tells order)))
        (traceAll order (commands.map (map f)) t).1 (runAll order (commands.map (map g)) v).1 ∧
      Tells order (traceAll order (commands.map (map f)) t).2
        (runAll order (commands.map (map g)) v).2 := by
  induction commands generalizing t v with
  | nil => exact ⟨.nil, ht⟩
  | cons c commands ih =>
    have hr := mirrors_run c hfg t v ht
    simp only [List.map_cons, traceAll, runAll]
    generalize (c.map f).trace order t = r at hr ⊢
    generalize (c.map g).run order v = r' at hr ⊢
    cases hr with
    | ok hreply h => exact ⟨.cons (.ok hreply) (ih h).1, (ih h).2⟩
    | error e h => exact ⟨.cons (.error e) (ih h).1, (ih h).2⟩

end Command

end JsonDoc
