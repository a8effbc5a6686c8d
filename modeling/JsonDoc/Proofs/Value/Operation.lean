import JsonDoc.Proofs.Value.Mutation
import JsonDoc.Value.Path

/-!
# Operations at places of a value

A command reads or changes the part of a value that a path leads to, and a run gives one after
another.  The operations are data over the values they are given (`Action α`), so that the same
commands can be carried out on values that are represented differently.  The reference that a
mutable access comes to is one more step of the path: writing through it is `Change.assign`, and
looking at it `Change.read`.  A run goes on after a command that fails.
-/

namespace JsonDoc

/-- What an operation comes to. -/
inductive Reply (α : Type) where
  | done
  | value (x : α)
  | found (x? : Option α)
  | items (xs : List (Option String × α))
  | count (n : ℕ)
  deriving DecidableEq, Repr

/-- An operation that changes nothing. -/
inductive Query where
  | size
  | element (index : ℕ)
  | find (key : String)
  deriving DecidableEq, Repr

/-- An operation that may change the value it is applied to. -/
inductive Change (α : Type) where
  | read
  | assign (x : α)
  | clear
  | take
  | push (x : α)
  | insertAt (index : ℕ) (x : α)
  | eraseIndex (index : ℕ)
  | eraseRange (start stop : ℕ)
  | insert (key : String) (x : α)
  /-- The value of a member that is there, in place of which another is put. -/
  | replace (key : String) (x : α)
  | eraseKey (key : String)
  deriving DecidableEq, Repr

/-- An operation. -/
inductive Action (α : Type) where
  | query (q : Query)
  | change (c : Change α)
  /-- The items of a container in their order, in place of some of which values are put. -/
  | visit (writes : List (ℕ × α))
  deriving DecidableEq, Repr

/-- An operation on the part that a path leads to. -/
structure Command (α : Type) where
  path : List PathStep
  /-- The steps are asserted to be possible. -/
  asserted : Bool
  action : Action α
  deriving DecidableEq, Repr

variable {α β : Type}

/-! ### Operations on other values -/

/-- The reply with its values made others. -/
def Reply.map (f : α → β) : Reply α → Reply β
  | done => done
  | value x => value (f x)
  | found x? => found (x?.map f)
  | items xs => items (xs.map fun (key, x) => (key, f x))
  | count n => count n

/-- The change with the values it is given made others. -/
def Change.map (f : α → β) : Change α → Change β
  | read => read
  | assign x => assign (f x)
  | clear => clear
  | take => take
  | push x => push (f x)
  | insertAt index x => insertAt index (f x)
  | eraseIndex index => eraseIndex index
  | eraseRange start stop => eraseRange start stop
  | insert key x => insert key (f x)
  | replace key x => replace key (f x)
  | eraseKey key => eraseKey key

/-- The operation with the values it is given made others. -/
def Action.map (f : α → β) : Action α → Action β
  | query q => query q
  | change c => change (c.map f)
  | visit writes => visit (writes.map fun (position, x) => (position, f x))

/-- The command with the values it is given made others. -/
def Command.map (f : α → β) (c : Command α) : Command β :=
  ⟨c.path, c.asserted, c.action.map f⟩

/-- The operation goes through the items in their order. -/
def Action.isVisit : Action α → Bool
  | visit _ => true
  | _ => false

@[simp] theorem Action.isVisit_map (f : α → β) (a : Action α) : (a.map f).isVisit = a.isVisit := by
  cases a <;> rfl

/-- What a step that is not possible fails with. -/
def Fault.ofStep (asserted : Bool) (s : PathStep) (e : Error) : Fault :=
  if asserted then .step s e else .error e

/-! ### Operations on values -/

/-- What a query comes to. -/
def Query.run : Query → Value → Except Error (Reply Value)
  | size, v => v.size.map .count
  | element index, v => (v.element index).map .value
  | find key, v => (v.find? key).map .found

/-- The edit that a change is. -/
def Change.run (order : MemberOrder) : Change Value → Edit Error (Reply Value)
  | read => .value <$> Edit.read
  | assign x => (fun () => .done) <$> Edit.assign x
  | clear => (fun () => .done) <$> Edit.clear
  | take => .value <$> Edit.take
  | push x => (fun () => .done) <$> Edit.push x
  | insertAt index x => (fun () => .done) <$> Edit.insertAt index x
  | eraseIndex index => .value <$> Edit.eraseIndex index
  | eraseRange start stop => (fun () => .done) <$> Edit.eraseRange start stop
  | insert key x => .found <$> Edit.insert order key x
  | replace key x => .found <$> Edit.replace order key x
  | eraseKey key => .found <$> Edit.eraseKey key

namespace Command

variable (order : MemberOrder)

/-- The edit that a command is. -/
def run (c : Command Value) : Edit Fault (Reply Value) :=
  match c.action with
  | .query q => fun v =>
    match (v.follow (Fault.ofStep c.asserted) c.path).bind fun x => (q.run x).mapError .error with
    | .ok reply => .ok reply v
    | .error e => .error e v
  | .change x =>
    Edit.along order (Fault.ofStep c.asserted) c.path ((x.run order).mapError .error)
  | .visit writes =>
    Edit.along order (Fault.ofStep c.asserted) c.path
      ((Reply.items <$> Edit.visit writes).mapError .error)

/-- The outcomes of commands that are given one after another, and the value after them. -/
def runAll : List (Command Value) → Value → List (Except Fault (Reply Value)) × Value
  | [], v => ([], v)
  | c :: commands, v =>
    match c.run order v with
    | .ok reply w => (.ok reply :: (runAll commands w).1, (runAll commands w).2)
    | .error e w => (.error e :: (runAll commands w).1, (runAll commands w).2)

end Command

/-! ### Outcomes that are the same up to a relation -/

section

variable {γ δ ε : Type}

/-- Both succeed with what is related, or fail with the same error. -/
inductive SameOutcome (R : α → β → Prop) : Except ε α → Except ε β → Prop
  | ok {a : α} {b : β} (h : R a b) : SameOutcome R (.ok a) (.ok b)
  | error (e : ε) : SameOutcome R (.error e) (.error e)

namespace SameOutcome

variable {R : α → β → Prop} {S : γ → δ → Prop} {x : Except ε α} {y : Except ε β}

theorem mapError {ζ : Type} (h : SameOutcome R x y) (f : ε → ζ) :
    SameOutcome R (x.mapError f) (y.mapError f) := by
  cases h with
  | ok h => exact .ok h
  | error e => exact .error (f e)

theorem bind (h : SameOutcome R x y) {f : α → Except ε γ} {g : β → Except ε δ}
    (hfg : ∀ a b, R a b → SameOutcome S (f a) (g b)) :
    SameOutcome S (x.bind f) (y.bind g) := by
  cases h with
  | ok h => exact hfg _ _ h
  | error e => exact .error e

theorem map (h : SameOutcome R x y) {f : α → γ} {g : β → δ}
    (hfg : ∀ a b, R a b → S (f a) (g b)) : SameOutcome S (x.map f) (y.map g) := by
  cases h with
  | ok h => exact .ok (hfg _ _ h)
  | error e => exact .error e

end SameOutcome

end

end JsonDoc
