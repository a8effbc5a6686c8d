import JsonDoc.Text.Quoted
import JsonDoc.Value.Edit

/-!
# Paths

A path leads from a value to a part of it, by keys of objects and indices of arrays.  Reading along a
path fails at the first step that is missing; an edit along a path makes what is missing.  A step
either fails with its error or, where the caller asserts that it is possible, with a fault that names
the step.
-/

namespace JsonDoc

/-- One step of a path. -/
inductive PathStep where
  | key (key : String)
  | index (index : Nat)
  deriving DecidableEq, Repr

namespace PathStep

/-- The step as a message shows it. -/
def text : PathStep → String
  | .key k => Quoted.string k
  | .index i => String.ofList (Nat.toDigits 10 i)

end PathStep

/-- What an operation along a path fails with. -/
inductive Fault where
  /-- An error like any other. -/
  | error (e : Error)
  /-- A step that was asserted to be possible, with its error. -/
  | step (step : PathStep) (e : Error)
  deriving DecidableEq, Repr

/-- The words for a fault. -/
def Fault.message : Fault → String
  | error e => e.message
  | step s e => "couldn't index a JSON value with " ++ s.text ++ ": " ++ e.message

namespace Value

/-- The part that a step leads to. -/
def part (v : Value) : PathStep → Except Error Value
  | .key key => v.member key
  | .index index => v.element index

variable {ε : Type} (fault : PathStep → Error → ε)

/-- The part that a path leads to, where each step fails in its own way. -/
def follow (path : List PathStep) (v : Value) : Except ε Value :=
  path.foldlM (fun v s => (v.part s).mapError (fault s)) v

@[simp] theorem follow_nil (v : Value) : v.follow fault [] = .ok v := rfl

theorem follow_cons (s : PathStep) (path : List PathStep) (v : Value) :
    v.follow fault (s :: path) = ((v.part s).mapError (fault s)).bind (follow fault path) := rfl

/-- A path leads on from where the one before it leads to. -/
theorem follow_append (path rest : List PathStep) (v : Value) :
    v.follow fault (path ++ rest) = (v.follow fault path).bind (follow fault rest) := by
  induction path generalizing v with
  | nil => rfl
  | cons s path ih =>
    rw [List.cons_append, follow_cons, follow_cons]
    cases (v.part s).mapError (fault s) with
    | error e => rfl
    | ok w => exact ih w

end Value

namespace Edit

variable {ε α : Type} (order : MemberOrder) (fault : PathStep → Error → ε)

/-- The edit of the part that a step leads to. -/
def step (s : PathStep) (edit : Edit ε α) : Edit ε α :=
  match s with
  | .key key => member order (fault s) key edit
  | .index index => element (fault s) index edit

/-- The edit of the part that a path leads to. -/
def along (path : List PathStep) (edit : Edit ε α) : Edit ε α :=
  path.foldr (step order fault) edit

@[simp] theorem along_nil (edit : Edit ε α) : along order fault [] edit = edit := rfl

@[simp] theorem along_cons (s : PathStep) (path : List PathStep) (edit : Edit ε α) :
    along order fault (s :: path) edit = step order fault s (along order fault path edit) := rfl

theorem along_append (path rest : List PathStep) (edit : Edit ε α) :
    along order fault (path ++ rest) edit =
      along order fault path (along order fault rest edit) :=
  List.foldr_append

end Edit

end JsonDoc
