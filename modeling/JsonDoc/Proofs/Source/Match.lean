import Mathlib.Data.Nat.Init
import JsonDoc.Source.Bytes

/-!
# Sources that match

Two sources match under a relation of their states if a request comes to the same from related
states and leaves related states.  Sources that match answer the same (`take_eq_of_runsMatch`,
`answers_eq_of_runsMatch`), and sources of bytes match as sources of characters if their bytes do.
-/

namespace JsonDoc

open CharSource

/-! ### Runs -/

variable {ε σ τ α β : Type} {R : σ → τ → Prop}

/-- Two runs come to the same and leave states that are still related. -/
inductive ResultsMatch (R : σ → τ → Prop) : EStateM.Result ε σ α → EStateM.Result ε τ α → Prop
  | ok (a : α) {s : σ} {t : τ} : R s t → ResultsMatch R (.ok a s) (.ok a t)
  | error (e : ε) {s : σ} {t : τ} : R s t → ResultsMatch R (.error e s) (.error e t)

theorem ResultsMatch.stateAfter {r : EStateM.Result ε σ α} {r' : EStateM.Result ε τ α}
    (h : ResultsMatch R r r') : R (JsonDoc.stateAfter r) (JsonDoc.stateAfter r') := by
  obtain ⟨-, h⟩ | ⟨-, h⟩ := h <;> exact h

theorem ResultsMatch.exists_of_ok_left {a : α} {s : σ} {r : EStateM.Result ε τ α}
    (h : ResultsMatch R (.ok a s) r) : ∃ t, r = .ok a t ∧ R s t := by
  obtain ⟨-, h⟩ := h
  exact ⟨_, rfl, h⟩

theorem ResultsMatch.exists_of_error_left {e : ε} {s : σ} {r : EStateM.Result ε τ α}
    (h : ResultsMatch R (.error e s) r) : ∃ t, r = .error e t ∧ R s t := by
  obtain - | ⟨-, h⟩ := h
  exact ⟨_, rfl, h⟩

theorem ResultsMatch.exists_of_ok_right {a : α} {t : τ} {r : EStateM.Result ε σ α}
    (h : ResultsMatch R r (.ok a t)) : ∃ s, r = .ok a s ∧ R s t := by
  obtain ⟨-, h⟩ := h
  exact ⟨_, rfl, h⟩

/-- Two computations come to the same from related states. -/
def RunsMatch (R : σ → τ → Prop) (f : EStateM ε σ α) (g : EStateM ε τ α) : Prop :=
  ∀ s t, R s t → ResultsMatch R (f s) (g t)

theorem runsMatch_pure (a : α) : RunsMatch R (pure a : EStateM ε σ α) (pure a) :=
  fun _ _ h => .ok a h

theorem runsMatch_throw (e : ε) : RunsMatch R (throw e : EStateM ε σ α) (throw e) :=
  fun _ _ h => .error e h

theorem runsMatch_bind {f : EStateM ε σ α} {g : EStateM ε τ α} {f' : α → EStateM ε σ β}
    {g' : α → EStateM ε τ β} (h : RunsMatch R f g) (h' : ∀ a, RunsMatch R (f' a) (g' a)) :
    RunsMatch R (f >>= f') (g >>= g') := by
  intro s t hst
  change ResultsMatch R (EStateM.bind f f' s) (EStateM.bind g g' t)
  unfold EStateM.bind
  have hrun := h s t hst
  generalize f s = left at hrun ⊢
  generalize g t = right at hrun ⊢
  obtain ⟨a, hleft⟩ | ⟨e, hleft⟩ := hrun
  · exact h' a _ _ hleft
  · exact .error e hleft

/-! ### Sources of characters -/

section

variable [CharSource σ] [CharSource τ] {s : σ} {t : τ}

theorem next_eq_of_runsMatch (h : RunsMatch R (nextChar : EStateM SourceError σ _) nextChar)
    (hst : R s t) : next s = next t ∧ R (rest s) (rest t) := by
  have hrun := h s t hst
  unfold next rest
  generalize nextChar s = left at hrun ⊢
  generalize nextChar t = right at hrun ⊢
  obtain ⟨a, hleft⟩ | ⟨e, hleft⟩ := hrun
  · exact ⟨by cases a <;> rfl, hleft⟩
  · exact ⟨rfl, hleft⟩

theorem take_eq_of_runsMatch (h : RunsMatch R (nextChar : EStateM SourceError σ _) nextChar)
    (n : ℕ) (hst : R s t) : take n s = take n t := by
  induction n generalizing s t with
  | zero => rfl
  | succ n ih =>
    obtain ⟨hnext, hrest⟩ := next_eq_of_runsMatch h hst
    rw [take, take, hnext, ih hrest]

/-- Sources that match and have nothing left at the same time have the same answers. -/
theorem answers_eq_of_runsMatch (h : RunsMatch R (nextChar : EStateM SourceError σ _) nextChar)
    (hempty : ∀ s t, R s t → isEmpty s = isEmpty t) (hst : R s t) : answers s = answers t := by
  induction hsize : size s using Nat.strong_induction_on generalizing s t with
  | _ n ih =>
  subst hsize
  obtain ⟨hnext, hrest⟩ := next_eq_of_runsMatch h hst
  cases hs : isEmpty s with
  | true => rw [answers_of_empty hs, answers_of_empty ((hempty s t hst).symm.trans hs)]
  | false =>
    have ht := (hempty s t hst).symm.trans hs
    rw [answers_of_next hs, answers_of_next ht, hnext, ih _ (size_lt s hs) hrest rfl]

end

/-! ### Sources of bytes -/

namespace Utf8

variable {f : EStateM SourceError σ (Option UInt8)} {g : EStateM SourceError τ (Option UInt8)}

theorem runsMatch_readContinuation (h : RunsMatch R f g) (n : ℕ) :
    RunsMatch R (readContinuation f n) (readContinuation g n) := by
  induction n with
  | zero => exact runsMatch_pure _
  | succ n ih =>
    refine runsMatch_bind h fun b => ?_
    rcases b with _ | b
    · exact runsMatch_throw _
    · exact runsMatch_bind ih fun _ => runsMatch_pure _

theorem runsMatch_readChar (h : RunsMatch R f g) (first : UInt8) :
    RunsMatch R (readChar f first) (readChar g first) := by
  unfold readChar
  split
  · exact runsMatch_pure _
  · refine runsMatch_bind (runsMatch_readContinuation h _) fun bytes => ?_
    rcases decode? (first :: bytes) with _ | c
    · exact runsMatch_throw _
    · exact runsMatch_pure _

theorem runsMatch_nextChar (h : RunsMatch R f g) : RunsMatch R (nextChar f) (nextChar g) := by
  refine runsMatch_bind h fun b => ?_
  rcases b with _ | first
  · exact runsMatch_pure _
  · exact runsMatch_bind (runsMatch_readChar h first) fun _ => runsMatch_pure _

end Utf8

/-- Sources of bytes whose reads come to the same answer the same characters. -/
theorem take_eq_of_bytesMatch [ByteSource σ] [ByteSource τ]
    (h : RunsMatch R (ByteSource.nextByte : EStateM SourceError σ _) ByteSource.nextByte) (n : ℕ)
    {s : σ} {t : τ} (hst : R s t) : take n s = take n t :=
  take_eq_of_runsMatch (Utf8.runsMatch_nextChar h) n hst

end JsonDoc
