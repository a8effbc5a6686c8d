import JsonDoc.Source.Basic
import JsonDoc.Text.Utf8

/-!
# Sources of bytes

Bytes are read one at a time, and characters from them as UTF-8: the first byte of a character says
how many are to follow, which are read until the source ends or fails, and all of them together have
to be one character.
-/

namespace JsonDoc

/-- The states from which bytes are read.  What is left is finite, as for a source of characters. -/
class ByteSource (σ : Type) where
  nextByte : EStateM SourceError σ (Option UInt8)
  isEmpty : σ → Bool
  size : σ → Nat
  size_lt (s : σ) : isEmpty s = false → size (stateAfter (nextByte s)) < size s
  ended (s : σ) : isEmpty s = true → nextByte s = .ok none s

namespace Utf8

variable {σ : Type}

/-- The bytes that follow a first byte, as many as it announced. -/
def readContinuation (nextByte : EStateM SourceError σ (Option UInt8)) :
    Nat → EStateM SourceError σ (List UInt8)
  | 0 => pure []
  | n + 1 => do
    match ← nextByte with
    | none => throw .invalidUtf8
    | some b => return b :: (← readContinuation nextByte n)

/-- The character that begins with a byte. -/
def readChar (nextByte : EStateM SourceError σ (Option UInt8)) (first : UInt8) :
    EStateM SourceError σ Char :=
  if first < 0x80 then pure (Char.ofNat first.toNat)
  else do
    let bytes ← readContinuation nextByte (announcedLength first - 1)
    match decode? (first :: bytes) with
    | some c => pure c
    | none => throw .invalidUtf8

/-- The next character, if the source has not ended. -/
def nextChar (nextByte : EStateM SourceError σ (Option UInt8)) :
    EStateM SourceError σ (Option Char) := do
  match ← nextByte with
  | none => return none
  | some first => return some (← readChar nextByte first)

variable {nextByte : EStateM SourceError σ (Option UInt8)}

theorem readContinuation_succ (n : Nat) (s : σ) :
    readContinuation nextByte (n + 1) s =
      match nextByte s with
      | .ok none t => .error .invalidUtf8 t
      | .ok (some b) t =>
        match readContinuation nextByte n t with
        | .ok bytes u => .ok (b :: bytes) u
        | .error e u => .error e u
      | .error e t => .error e t := by
  change EStateM.bind nextByte _ s = _
  unfold EStateM.bind
  rcases nextByte s with ⟨_ | b, t⟩ | ⟨e, t⟩
  · rfl
  · change EStateM.bind (readContinuation nextByte n) _ t = _
    unfold EStateM.bind
    dsimp only
    cases readContinuation nextByte n t <;> rfl
  · rfl

theorem readChar_eq (first : UInt8) (s : σ) :
    readChar nextByte first s =
      if first < 0x80 then .ok (Char.ofNat first.toNat) s
      else
        match readContinuation nextByte (announcedLength first - 1) s with
        | .ok bytes t =>
          match decode? (first :: bytes) with
          | some c => .ok c t
          | none => .error .invalidUtf8 t
        | .error e t => .error e t := by
  unfold readChar
  split
  · rfl
  · change EStateM.bind _ _ s = _
    unfold EStateM.bind
    rcases readContinuation nextByte (announcedLength first - 1) s with ⟨bytes, t⟩ | ⟨e, t⟩
    · dsimp only
      cases decode? (first :: bytes) <;> rfl
    · rfl

theorem nextChar_eq (s : σ) :
    nextChar nextByte s =
      match nextByte s with
      | .ok none t => .ok none t
      | .ok (some first) t =>
        match readChar nextByte first t with
        | .ok c u => .ok (some c) u
        | .error e u => .error e u
      | .error e t => .error e t := by
  change EStateM.bind nextByte _ s = _
  unfold EStateM.bind
  rcases nextByte s with ⟨_ | first, t⟩ | ⟨e, t⟩
  · rfl
  · change EStateM.bind (readChar nextByte first) _ t = _
    unfold EStateM.bind
    dsimp only
    cases readChar nextByte first t <;> rfl
  · rfl

end Utf8

namespace ByteSource

variable {σ : Type} [ByteSource σ] {α β : Type}

/-- A run that leaves no more than there was. -/
def NoGrowth (run : EStateM SourceError σ α) : Prop := ∀ s, size (stateAfter (run s)) ≤ size s

theorem noGrowth_pure (a : α) : NoGrowth (pure a : EStateM SourceError σ α) :=
  fun _ => Nat.le_refl _

theorem noGrowth_throw (e : SourceError) : NoGrowth (throw e : EStateM SourceError σ α) :=
  fun _ => Nat.le_refl _

theorem noGrowth_bind {run : EStateM SourceError σ α} {f : α → EStateM SourceError σ β}
    (h : NoGrowth run) (hf : ∀ a, NoGrowth (f a)) : NoGrowth (run >>= f) := by
  intro s
  have hs := h s
  change size (stateAfter (EStateM.bind run f s)) ≤ size s
  unfold EStateM.bind
  cases hr : run s with
  | error e t => rw [hr] at hs; exact hs
  | ok a t => rw [hr] at hs; exact Nat.le_trans (hf a t) hs

theorem noGrowth_nextByte : NoGrowth (nextByte : EStateM SourceError σ (Option UInt8)) := by
  intro s
  cases h : isEmpty s with
  | true => rw [ended s h]; exact Nat.le_refl _
  | false => exact Nat.le_of_lt (size_lt s h)

theorem noGrowth_readContinuation (n : Nat) :
    NoGrowth (Utf8.readContinuation (nextByte : EStateM SourceError σ (Option UInt8)) n) := by
  induction n with
  | zero => exact noGrowth_pure _
  | succ n ih =>
    refine noGrowth_bind noGrowth_nextByte fun b => ?_
    cases b with
    | none => exact noGrowth_throw _
    | some b => exact noGrowth_bind ih fun _ => noGrowth_pure _

theorem noGrowth_readChar (first : UInt8) :
    NoGrowth (Utf8.readChar (nextByte : EStateM SourceError σ (Option UInt8)) first) := by
  unfold Utf8.readChar
  split
  · exact noGrowth_pure _
  · refine noGrowth_bind (noGrowth_readContinuation _) fun bytes => ?_
    cases Utf8.decode? (first :: bytes) with
    | none => exact noGrowth_throw _
    | some c => exact noGrowth_pure _

/-- Every source of bytes is a source of characters, read as UTF-8. -/
instance : CharSource σ where
  nextChar := Utf8.nextChar nextByte
  isEmpty := isEmpty
  size := size
  size_lt s h := by
    have hs := size_lt s h
    change size (stateAfter (EStateM.bind nextByte _ s)) < size s
    unfold EStateM.bind
    cases hr : (nextByte s : EStateM.Result SourceError σ (Option UInt8)) with
    | error e t => rw [hr] at hs; exact hs
    | ok b t =>
      rw [hr] at hs
      cases b with
      | none => exact hs
      | some first =>
        exact Nat.lt_of_le_of_lt
          (noGrowth_bind (noGrowth_readChar first) (fun _ => noGrowth_pure _) t) hs
  ended s h := by
    change EStateM.bind nextByte _ s = _
    unfold EStateM.bind
    rw [ended s h]
    rfl

end ByteSource

end JsonDoc
