import JsonDoc.Proofs.Source.Character
import JsonDoc.Source.Reader

/-!
# Readers and what they answer

Interruptions that a reader retries change nothing about what it answers, and a reader of bytes
alone answers as the bytes do, since their reads match.  What one request takes off the events of a
reader is bytes, up to the four of a character, and nothing after a read that gives none
(`ReadPolicy.Request`).
-/

namespace JsonDoc

open CharSource

/-! ### Interruptions, and readers of bytes alone -/

/-- The events that are not interruptions. -/
def ReadEvent.uninterrupted (events : List ReadEvent) : List ReadEvent :=
  events.filter (· ≠ .interrupted)

theorem RetryingReader.runsMatch_uninterrupted :
    RunsMatch (fun r s : RetryingReader => s.events = ReadEvent.uninterrupted r.events)
      ByteSource.nextByte ByteSource.nextByte := by
  rintro ⟨events⟩ ⟨_⟩ rfl
  change ResultsMatch _ (nextByteFrom events) (nextByteFrom (ReadEvent.uninterrupted events))
  induction events with
  | nil => exact .ok none rfl
  | cons event events ih =>
    match event with
    | .byte b => exact .ok (some b) rfl
    | .nothing => exact .ok none rfl
    | .interrupted => exact ih
    | .failed reason => exact .error (SourceError.failure reason) rfl

/-- Interruptions change nothing about what a retrying reader answers. -/
theorem RetryingReader.take_uninterrupted (n : ℕ) (events : List ReadEvent) :
    take n (⟨events⟩ : RetryingReader) =
      take n (⟨ReadEvent.uninterrupted events⟩ : RetryingReader) :=
  take_eq_of_bytesMatch runsMatch_uninterrupted n rfl

theorem RetryingReader.runsMatch_bytes :
    RunsMatch (fun (r : RetryingReader) (bytes : List UInt8) => r.events = bytes.map .byte)
      ByteSource.nextByte ByteSource.nextByte := by
  rintro ⟨_⟩ bytes rfl
  rcases bytes with _ | ⟨b, bytes⟩
  · exact .ok none rfl
  · exact .ok (some b) rfl

theorem PlainReader.runsMatch_bytes :
    RunsMatch (fun (r : PlainReader) (bytes : List UInt8) => r.events = bytes.map .byte)
      ByteSource.nextByte ByteSource.nextByte := by
  rintro ⟨_⟩ bytes rfl
  rcases bytes with _ | ⟨b, bytes⟩
  · exact .ok none rfl
  · exact .ok (some b) rfl

/-! ### The events that a request takes -/

/-- What a reader does about the events other than bytes: the ones that it passes over, and what it
reports a failure as. -/
structure ReadPolicy where
  retries : ReadEvent → Bool
  failure? : ReadEvent → Option SourceError
  failure?_of_retries : ∀ event, retries event = true → failure? event = none
  retries_byte : ∀ b, retries (.byte b) = false
  failure?_byte : ∀ b, failure? (.byte b) = none
  failure?_nothing : failure? .nothing = none

/-- Interruptions are passed over. -/
def RetryingReader.policy : ReadPolicy where
  retries event := event == .interrupted
  failure?
    | .failed reason => some (.failure reason)
    | _ => none
  failure?_of_retries := by rintro (_ | _) <;> simp
  retries_byte _ := rfl
  failure?_byte _ := rfl
  failure?_nothing := rfl

/-- Nothing is passed over. -/
def PlainReader.policy : ReadPolicy where
  retries _ := false
  failure?
    | .interrupted => some (.readerFailed "Interrupted")
    | .failed reason => some (.readerFailed reason)
    | _ => none
  failure?_of_retries _ h := by cases h
  retries_byte _ := rfl
  failure?_byte _ := rfl
  failure?_nothing := rfl

namespace ReadPolicy

variable (p : ReadPolicy)

/-- The events that are not passed over. -/
def counted (events : List ReadEvent) : List ReadEvent := events.filter fun e => !p.retries e

/-- The events are bytes, except those that are passed over. -/
def OnlyBytes (events : List ReadEvent) : Prop :=
  ∀ event ∈ events, p.retries event = true ∨ ∃ b, event = .byte b

/-- The events that a run takes, where `reports` says which failures it reports: no more than a
count besides those passed over, nothing after one that is not a byte, and every failure among them
is reported. -/
structure Takes (count : ℕ) (reports : SourceError → Prop) (used : List ReadEvent) : Prop where
  length_le : (p.counted used).length ≤ count
  before_last : p.OnlyBytes used.dropLast
  reported : ∀ event ∈ used, ∀ e, p.failure? event = some e → reports e

/-- The events that one request takes: four at most, and if it answers a character, the bytes of
it. -/
structure Request (used : List ReadEvent) (answer : Answer) : Prop
    extends p.Takes 4 (fun e => answer = .failed e) used where
  char : ∀ c, answer = .char c → p.counted used = (Utf8.encode c).map .byte

/-- The events that one read takes, and what it comes to. -/
inductive ReadsOnce {σ : Type} :
    List ReadEvent → EStateM.Result SourceError σ (Option UInt8) → Prop
  | exhausted (t : σ) : ReadsOnce [] (.ok none t)
  | byte (b : UInt8) (t : σ) : ReadsOnce [.byte b] (.ok (some b) t)
  | nothing (t : σ) : ReadsOnce [.nothing] (.ok none t)
  | failed {event : ReadEvent} {e : SourceError} (t : σ) :
      p.failure? event = some e → ReadsOnce [event] (.error e t)
  | retried {event : ReadEvent} {used : List ReadEvent}
      {result : EStateM.Result SourceError σ (Option UInt8)} :
      p.retries event = true → ReadsOnce used result → ReadsOnce (event :: used) result

/-- Every read takes its events off the front. -/
def IsFollowedBy {σ : Type} (events : σ → List ReadEvent)
    (nextByte : EStateM SourceError σ (Option UInt8)) : Prop :=
  ∀ s, ∃ used, events s = used ++ events (stateAfter (nextByte s)) ∧ p.ReadsOnce used (nextByte s)

variable {p} {σ : Type} {m n : ℕ} {reports reports' : SourceError → Prop}
  {used more : List ReadEvent} {result : EStateM.Result SourceError σ (Option UInt8)}

theorem Takes.mono (h : p.Takes m reports used) (hmn : m ≤ n)
    (hreports : ∀ e, reports e → reports' e) : p.Takes n reports' used where
  length_le := Nat.le_trans h.length_le hmn
  before_last := h.before_last
  reported event hevent e he := hreports e (h.reported event hevent e he)

theorem OnlyBytes.failure? (h : p.OnlyBytes used) {event : ReadEvent} (hevent : event ∈ used) :
    p.failure? event = none := by
  obtain hretries | ⟨b, rfl⟩ := h event hevent
  · exact p.failure?_of_retries event hretries
  · exact p.failure?_byte b

/-- More may be taken where there have been bytes only. -/
theorem Takes.append (h : p.Takes n reports more) (hused : p.OnlyBytes used)
    (hlen : (p.counted used).length ≤ m) : p.Takes (m + n) reports (used ++ more) where
  length_le := by
    have hmore := h.length_le
    simp only [counted, List.filter_append, List.length_append] at hlen hmore ⊢
    omega
  before_last event hevent := by
    rw [List.dropLast_append] at hevent
    split at hevent
    · exact hused event ((List.dropLast_sublist used).subset hevent)
    · exact (List.mem_append.mp hevent).elim (hused event) (h.before_last event)
  reported event hevent e he := by
    obtain hevent | hevent := List.mem_append.mp hevent
    · rw [hused.failure? hevent] at he
      cases he
    · exact h.reported event hevent e he

theorem onlyBytes_singleton {event : ReadEvent}
    (h : p.retries event = true ∨ ∃ b, event = .byte b) : p.OnlyBytes [event] := by
  intro e he
  rwa [List.mem_singleton.mp he]

theorem takes_singleton {event : ReadEvent}
    (h : ∀ e, p.failure? event = some e → reports e) : p.Takes 1 reports [event] where
  length_le := List.length_filter_le _ _
  before_last _ hevent := absurd hevent List.not_mem_nil
  reported e he := by rwa [List.mem_singleton.mp he]

theorem ReadsOnce.takes (h : p.ReadsOnce used result) :
    p.Takes 1 (fun e => ∃ t, result = .error e t) used := by
  induction h with
  | exhausted t => exact ⟨Nat.zero_le 1, by simp [OnlyBytes], by simp⟩
  | byte b t =>
    apply takes_singleton
    rw [p.failure?_byte]
    exact fun e he => by cases he
  | nothing t =>
    apply takes_singleton
    rw [p.failure?_nothing]
    exact fun e he => by cases he
  | @failed event e t hfailed =>
    apply takes_singleton
    intro e' he'
    rw [hfailed] at he'
    exact ⟨t, by rw [Option.some.inj he']⟩
  | @retried event used result hretries _ ih =>
    have hlen : (p.counted [event]).length ≤ 0 := by simp [counted, hretries]
    exact ih.append (onlyBytes_singleton (Or.inl hretries)) hlen

theorem ReadsOnce.bytes {b : UInt8} {t : σ} (h : p.ReadsOnce used (.ok (some b) t)) :
    p.OnlyBytes used ∧ p.counted used = [.byte b] := by
  generalize hresult : EStateM.Result.ok (some b) t = result at h
  induction h with
  | exhausted | nothing | failed => cases hresult
  | byte =>
    cases hresult
    exact ⟨onlyBytes_singleton (Or.inr ⟨b, rfl⟩), by simp [counted, p.retries_byte]⟩
  | retried hretries _ ih =>
    obtain ⟨honly, hcounted⟩ := ih hresult
    refine ⟨fun event hevent => ?_, by simpa [counted, hretries] using hcounted⟩
    obtain rfl | hevent := List.mem_cons.mp hevent
    · exact Or.inl hretries
    · exact honly event hevent

/-- How a run uses the events of a reader, where `reads` are the bytes that a value is read from. -/
structure Uses {α : Type} (p : ReadPolicy) (count : ℕ) (events : σ → List ReadEvent)
    (reads : α → Option (List UInt8)) (s : σ) (result : EStateM.Result SourceError σ α)
    (used : List ReadEvent) : Prop where
  events_eq : events s = used ++ events (stateAfter result)
  takes : p.Takes count (fun e => ∃ t, result = .error e t) used
  bytes : ∀ a t bs, result = .ok a t → reads a = some bs → p.counted used = bs.map .byte

section

variable {events : σ → List ReadEvent} {nextByte : EStateM SourceError σ (Option UInt8)}

/-- A run goes on after a byte, up to the same state and with its failures. -/
theorem Uses.after_byte {α β : Type} {f : α → Option (List UInt8)} {g : β → Option (List UInt8)}
    {result : EStateM.Result SourceError σ α} {result' : EStateM.Result SourceError σ β}
    {s t : σ} {b : UInt8} (h : p.Uses n events f t result more)
    (hevents : events s = used ++ events t) (hused : p.ReadsOnce used (.ok (some b) t))
    (hstate : stateAfter result' = stateAfter result)
    (herror : ∀ e u, result = .error e u → result' = .error e u)
    (hok : ∀ a u bs, result' = .ok a u → g a = some bs →
      ∃ a' bs', result = .ok a' u ∧ f a' = some bs' ∧ bs = b :: bs') :
    p.Uses (n + 1) events g s result' (used ++ more) := by
  obtain ⟨honly, hcounted⟩ := hused.bytes
  constructor
  · rw [hevents, h.events_eq, hstate, List.append_assoc]
  · have hlen : (p.counted used).length ≤ 1 := by simp [hcounted]
    refine (h.takes.append honly hlen).mono (by omega) fun e ⟨u, he⟩ => ⟨u, herror e u he⟩
  · intro a u bs ha hbs
    obtain ⟨a', bs', ha', hbs', rfl⟩ := hok a u bs ha hbs
    have hmore := h.bytes a' u bs' ha' hbs'
    rw [List.map_cons, ← hmore]
    simp only [counted, List.filter_append] at hcounted ⊢
    rw [hcounted, List.singleton_append]

/-- The bytes that follow a first one take no more events than they are. -/
theorem IsFollowedBy.readContinuation (h : p.IsFollowedBy events nextByte) (n : ℕ) (s : σ) :
    ∃ used, p.Uses n events some s (Utf8.readContinuation nextByte n s) used := by
  induction n generalizing s with
  | zero =>
    refine ⟨[], rfl, ⟨Nat.zero_le 0, by simp [OnlyBytes], by simp⟩, fun bytes t bs hread hbs => ?_⟩
    cases hread
    cases hbs
    rfl
  | succ n ih =>
    obtain ⟨used, hevents, hused⟩ := h s
    rw [Utf8.readContinuation_succ]
    generalize nextByte s = result at hevents hused ⊢
    rcases result with ⟨_ | b, t⟩ | ⟨e, t⟩ <;> dsimp only
    · exact ⟨used, hevents, hused.takes.mono (by omega) (by simp), by simp⟩
    · obtain ⟨more, hmore⟩ := ih t
      refine ⟨used ++ more, hmore.after_byte hevents hused ?_ ?_ ?_⟩
      · cases Utf8.readContinuation nextByte n t <;> rfl
      · intro e u he
        simp only [he]
      · intro bytes u bs hbytes hbs
        cases hbs
        split at hbytes
        · rename_i tail u' htail
          cases hbytes
          exact ⟨tail, tail, htail, rfl, rfl⟩
        · cases hbytes
    · exact ⟨used, hevents, hused.takes.mono (by omega) (by simp), by simp⟩

/-- A character is read up to where its bytes are. -/
theorem stateAfter_readChar (first : UInt8) (s : σ) :
    stateAfter (Utf8.readChar nextByte first s) =
      stateAfter (Utf8.readContinuation nextByte (Utf8.selectedLength first - 1) s) := by
  rw [Utf8.readChar_eq_decode]
  rcases Utf8.readContinuation nextByte _ s with ⟨bytes, t⟩ | ⟨e, t⟩
  · dsimp only
    cases Utf8.decode? (first :: bytes) <;> rfl
  · rfl

theorem exists_of_readChar_ok {first : UInt8} {c : Char} {s t : σ}
    (h : Utf8.readChar nextByte first s = .ok c t) :
    ∃ bytes, Utf8.readContinuation nextByte (Utf8.selectedLength first - 1) s = .ok bytes t ∧
      Utf8.encode c = first :: bytes := by
  rw [Utf8.readChar_eq_decode] at h
  generalize Utf8.readContinuation nextByte _ s = result at h ⊢
  rcases result with ⟨bytes, t'⟩ | ⟨e, t'⟩
  · dsimp only at h
    split at h
    · rename_i hdecode
      cases h
      exact ⟨bytes, rfl, (Utf8.decode?_eq_some_iff.mp hdecode).symm⟩
    · cases h
  · cases h

/-- The bytes of a character after its first one are three at most. -/
theorem IsFollowedBy.readChar (h : p.IsFollowedBy events nextByte) (first : UInt8) (s : σ) :
    ∃ used, p.Uses 3 events (fun c => some (Utf8.encode c).tail) s
      (Utf8.readChar nextByte first s) used := by
  obtain ⟨used, hevents, htakes, hbytes⟩ := h.readContinuation (Utf8.selectedLength first - 1) s
  refine ⟨used, ?_, htakes.mono ?_ ?_, fun c t bs hread hbs => ?_⟩
  · rw [stateAfter_readChar, ← hevents]
  · have := Utf8.selectedLength_bounds first
    omega
  · rintro e ⟨t, he⟩
    refine ⟨t, ?_⟩
    rw [Utf8.readChar_eq_decode, he]
  · obtain ⟨tail, htail, hencode⟩ := exists_of_readChar_ok hread
    cases hbs
    rw [hencode]
    exact hbytes tail t tail htail rfl

theorem head_of_readChar_ok {first : UInt8} {c : Char} {s t : σ}
    (h : Utf8.readChar nextByte first s = .ok c t) :
    Utf8.encode c = first :: (Utf8.encode c).tail := by
  obtain ⟨tail, -, hencode⟩ := exists_of_readChar_ok h
  rw [hencode]
  rfl

/-- A request takes four events at most besides those passed over, the bytes of a character if it
answers one. -/
theorem IsFollowedBy.nextChar (h : p.IsFollowedBy events nextByte) (s : σ) :
    ∃ used, p.Uses 4 events (Option.map Utf8.encode) s (Utf8.nextChar nextByte s) used := by
  obtain ⟨used, hevents, hused⟩ := h s
  rw [Utf8.nextChar_eq]
  generalize nextByte s = result at hevents hused ⊢
  rcases result with ⟨_ | first, t⟩ | ⟨e, t⟩ <;> dsimp only
  · refine ⟨used, hevents, hused.takes.mono (by omega) (by simp), fun a u bs ha hbs => ?_⟩
    cases ha
    cases hbs
  · obtain ⟨more, hmore⟩ := h.readChar first t
    refine ⟨used ++ more, hmore.after_byte hevents hused ?_ ?_ ?_⟩
    · cases Utf8.readChar nextByte first t <;> rfl
    · intro e u he
      rw [he]
    · intro a u bs ha hbs
      split at ha
      · rename_i c u' hread
        cases ha
        cases hbs
        exact ⟨c, _, hread, rfl, head_of_readChar_ok hread⟩
      · cases ha
  · exact ⟨used, hevents, hused.takes.mono (by omega) (by simp), by simp⟩

end

/-- What one request takes off the events, for any reader whose reads take theirs off the front. -/
theorem IsFollowedBy.exists_request [ByteSource σ] {events : σ → List ReadEvent}
    (h : p.IsFollowedBy events ByteSource.nextByte) (s : σ) :
    ∃ used, events s = used ++ events (rest s) ∧ p.Request used (next s) := by
  obtain ⟨used, hevents, htakes, hbytes⟩ := h.nextChar s
  refine ⟨used, hevents, htakes.mono (Nat.le_refl 4) ?_, fun c hc => ?_⟩
  · rintro e ⟨t, he⟩
    change Answer.ofResult (Utf8.nextChar ByteSource.nextByte s) = _
    rw [he]
    rfl
  · change Answer.ofResult (Utf8.nextChar ByteSource.nextByte s) = _ at hc
    generalize Utf8.nextChar ByteSource.nextByte s = result at hbytes hc
    rcases result with ⟨_ | c', t⟩ | ⟨e, t⟩
    · cases hc
    · cases hc
      exact hbytes _ t _ rfl rfl
    · cases hc

/-- Requests one after another take consecutive events. -/
theorem IsFollowedBy.exists_requests [ByteSource σ] {events : σ → List ReadEvent}
    (h : p.IsFollowedBy events ByteSource.nextByte) (n : ℕ) (s : σ) :
    ∃ requests : List (List ReadEvent), events s = requests.flatten ++ events (advance n s) ∧
      List.Forall₂ p.Request requests (take n s) := by
  induction n generalizing s with
  | zero => exact ⟨[], rfl, .nil⟩
  | succ n ih =>
    obtain ⟨used, hevents, hused⟩ := h.exists_request s
    obtain ⟨requests, hrest, hrequests⟩ := ih (rest s)
    refine ⟨used :: requests, ?_, .cons hused hrequests⟩
    rw [hevents, hrest, List.flatten_cons, List.append_assoc]
    rfl

end ReadPolicy

theorem RetryingReader.isFollowedBy :
    policy.IsFollowedBy RetryingReader.events ByteSource.nextByte := by
  rintro ⟨events⟩
  change ∃ used, events = used ++ (stateAfter (nextByteFrom events)).events ∧
    policy.ReadsOnce used (nextByteFrom events)
  induction events with
  | nil => exact ⟨[], rfl, .exhausted _⟩
  | cons event events ih =>
    match event with
    | .byte b => exact ⟨[.byte b], rfl, .byte b _⟩
    | .nothing => exact ⟨[.nothing], rfl, .nothing _⟩
    | .failed reason => exact ⟨[.failed reason], rfl, .failed _ rfl⟩
    | .interrupted =>
      obtain ⟨used, hevents, hused⟩ := ih
      exact ⟨.interrupted :: used, congrArg _ hevents, .retried rfl hused⟩

theorem PlainReader.isFollowedBy :
    policy.IsFollowedBy PlainReader.events ByteSource.nextByte := by
  rintro ⟨events⟩
  match events with
  | [] => exact ⟨[], rfl, .exhausted _⟩
  | .byte b :: events => exact ⟨[.byte b], rfl, .byte b _⟩
  | .nothing :: events => exact ⟨[.nothing], rfl, .nothing _⟩
  | .interrupted :: events => exact ⟨[.interrupted], rfl, .failed _ rfl⟩
  | .failed reason :: events => exact ⟨[.failed reason], rfl, .failed _ rfl⟩

/-- Readers are transparent.  Interruptions, wherever they come, change nothing about what a
retrying reader answers, and bytes alone are answered by either reader as from memory.  One request
after another takes consecutive events: four at most besides those retried, the bytes of the
character that it answers, none after a read of nothing or a failure, and every failure among them
is its answer. -/
theorem readers_transparent :
    (∀ (events events' : List ReadEvent),
      ReadEvent.uninterrupted events = ReadEvent.uninterrupted events' →
        ∀ n, take n (⟨events⟩ : RetryingReader) = take n (⟨events'⟩ : RetryingReader)) ∧
    (∀ (bytes : List UInt8) (n : ℕ),
      take n (⟨bytes.map .byte⟩ : RetryingReader) = take n bytes ∧
      take n (⟨bytes.map .byte⟩ : PlainReader) = take n bytes) ∧
    (∀ (r : RetryingReader) (n : ℕ), ∃ requests : List (List ReadEvent),
      r.events = requests.flatten ++ (advance n r).events ∧
        List.Forall₂ RetryingReader.policy.Request requests (take n r)) ∧
    ∀ (r : PlainReader) (n : ℕ), ∃ requests : List (List ReadEvent),
      r.events = requests.flatten ++ (advance n r).events ∧
        List.Forall₂ PlainReader.policy.Request requests (take n r) := by
  refine ⟨fun events events' h n => ?_, fun bytes n => ⟨?_, ?_⟩, fun r n => ?_, fun r n => ?_⟩
  · rw [RetryingReader.take_uninterrupted n events, h, ← RetryingReader.take_uninterrupted]
  · exact take_eq_of_bytesMatch RetryingReader.runsMatch_bytes n rfl
  · exact take_eq_of_bytesMatch PlainReader.runsMatch_bytes n rfl
  · exact RetryingReader.isFollowedBy.exists_requests n r
  · exact PlainReader.isFollowedBy.exists_requests n r

/-- Interruptions before and between the two bytes of a character. -/
theorem readers_transparent_twoBytes :
    take 2 (⟨[.interrupted, .byte 0xC3, .interrupted, .byte 0xA9]⟩ : RetryingReader) =
      [.char 'é', .ended] :=
  (readers_transparent.1 _ [.byte 0xC3, .byte 0xA9] (by decide) 2).trans (by decide)

end JsonDoc
