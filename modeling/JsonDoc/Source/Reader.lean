import JsonDoc.Source.Bytes

/-!
# Readers

A reader is the sequence of what its reads will come to: a byte, nothing, an interruption, or a
failure.  A read of nothing is the end as far as that read is concerned, though more may follow, and
after the last event every read is of nothing.  Readers are of two kinds, according to what they do
about an interruption.
-/

namespace JsonDoc

/-- What one read comes to. -/
inductive ReadEvent where
  | byte (b : UInt8)
  | nothing
  | interrupted
  | failed (reason : String)
  deriving DecidableEq, Repr

/-- A reader that reads again when it is interrupted and whose failures describe themselves. -/
structure RetryingReader where
  events : List ReadEvent

/-- A reader for which an interruption is a failure like any other. -/
structure PlainReader where
  events : List ReadEvent

/-- The next byte, after any interruptions. -/
def RetryingReader.nextByteFrom :
    List ReadEvent → EStateM.Result SourceError RetryingReader (Option UInt8)
  | [] => .ok none ⟨[]⟩
  | .byte b :: events => .ok (some b) ⟨events⟩
  | .nothing :: events => .ok none ⟨events⟩
  | .interrupted :: events => nextByteFrom events
  | .failed reason :: events => .error (.failure reason) ⟨events⟩

/-- The next byte, where every interruption is reported. -/
def PlainReader.nextByteFrom :
    List ReadEvent → EStateM.Result SourceError PlainReader (Option UInt8)
  | [] => .ok none ⟨[]⟩
  | .byte b :: events => .ok (some b) ⟨events⟩
  | .nothing :: events => .ok none ⟨events⟩
  | .interrupted :: events => .error (.readerFailed "Interrupted") ⟨events⟩
  | .failed reason :: events => .error (.readerFailed reason) ⟨events⟩

theorem RetryingReader.length_after_nextByteFrom (event : ReadEvent) (events : List ReadEvent) :
    (stateAfter (nextByteFrom (event :: events))).events.length < (event :: events).length := by
  induction events generalizing event with
  | nil => cases event <;> simp [nextByteFrom, stateAfter]
  | cons e events ih =>
    cases event with
    | interrupted => exact Nat.lt_trans (ih e) (Nat.lt_succ_self _)
    | _ => simp [nextByteFrom, stateAfter]

instance : ByteSource RetryingReader where
  nextByte r := RetryingReader.nextByteFrom r.events
  isEmpty r := r.events.isEmpty
  size r := r.events.length
  size_lt r h := by
    obtain ⟨events⟩ := r
    cases events with
    | nil => cases h
    | cons event events => exact RetryingReader.length_after_nextByteFrom event events
  ended r h := by
    obtain ⟨events⟩ := r
    cases events with
    | nil => rfl
    | cons => cases h

instance : ByteSource PlainReader where
  nextByte r := PlainReader.nextByteFrom r.events
  isEmpty r := r.events.isEmpty
  size r := r.events.length
  size_lt r h := by
    obtain ⟨events⟩ := r
    cases events with
    | nil => cases h
    | cons event events => cases event <;> simp [PlainReader.nextByteFrom, stateAfter]
  ended r h := by
    obtain ⟨events⟩ := r
    cases events with
    | nil => rfl
    | cons => cases h

/-- How many of the events are bytes. -/
def ReadEvent.byteCount (events : List ReadEvent) : Nat :=
  events.countP fun
    | byte _ => true
    | _ => false

end JsonDoc
