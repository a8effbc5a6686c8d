import JsonDoc.Proofs.Document.Depth

/-!
# Open containers, counted

The containers that are open are the frames of a state, and a count as well that brackets move: one
more at an opening bracket, where the limit is checked, and one less at a closing one
(`CountedState.step`).  The two agree wherever reading comes to, so the counter never goes below zero
and reading by it is reading (`CountedState.run_eq`).
-/

namespace JsonDoc

/-- A state of reading, and the count of containers that are open. -/
structure CountedState where
  state : ReadState
  depth : ℕ

/-- The reason why a counter cannot be moved. -/
inductive CountFault where
  | error (cause : Cause)
  /-- There is nothing to count down from. -/
  | underflow

namespace CountedState

open Document

/-- Before a document no container is open. -/
def start : CountedState := ⟨.start, 0⟩

/-- Counts one more container, if so many may be open. -/
def enter (maxDepth : Option ℕ) (depth : ℕ) : Except CountFault ℕ :=
  if maxDepth.any (· < depth + 1) then .error (.error .tooDeep) else .ok (depth + 1)

/-- Counts one container less. -/
def leave (depth : ℕ) : Except CountFault ℕ :=
  if 0 < depth then .ok (depth - 1) else .error .underflow

/-- The count after a token. -/
def count (maxDepth : Option ℕ) (depth : ℕ) : Token → Except CountFault ℕ
  | .beginArray => enter maxDepth depth
  | .beginObject => enter maxDepth depth
  | .endArray => leave depth
  | .endObject => leave depth
  | _ => .ok depth

/-- The state after a token other than the end of the input: the frames set no limit. -/
def step (options : ReadOptions) (s : CountedState) (tok : Token) :
    Except CountFault CountedState := do
  let state ← (s.state.step (unlimited options.order) tok).mapError .error
  return ⟨state, ← count options.maxDepth s.depth tok⟩

/-- The document that is read from a state on. -/
def run (options : ReadOptions) (s : CountedState) (cur : Cursor) :
    EStateM.Result CountFault Cursor Value :=
  match h : Token.scan cur with
  | .error cause next => .error (.error cause) next
  | .ok tok next =>
    if htok : tok = .endOfInput then
      match s.state.atEnd with
      | .ok v => .ok v next
      | .error cause => .error (.error cause) next
    else
      match s.step options tok with
      | .error fault => .error fault next
      | .ok s =>
        have : next.pending.length < cur.pending.length := Token.length_pending_scan_lt h htok
        run options s next
termination_by cur.pending.length

variable {options : ReadOptions} {order : MemberOrder} {s s' : ReadState}
  {tok : Token}

/-! ### One step -/

/-- The token opens a container. -/
def Opens (tok : Token) : Prop := tok = .beginArray ∨ tok = .beginObject

/-- A closing bracket is expected only where a container is open. -/
theorem openCount_pos_of_close (h : s.step (unlimited order) tok = .ok s')
    (htok : tok = .endArray ∨ tok = .endObject) : 0 < s.openCount := by
  obtain ⟨place, frames⟩ := s
  cases place with
  | value | complete v => rcases htok with rfl | rfl <;> cases h
  | _ => exact Nat.add_pos_left Nat.one_pos _

/-- The frames set a limit to opening brackets only. -/
theorem step_of_not_opens (h : ¬ Opens tok) (options : ReadOptions) (s : ReadState) :
    s.step options tok = s.step (unlimited options.order) tok := by
  obtain ⟨place, frames⟩ := s
  cases tok with
  | beginArray => exact absurd (Or.inl rfl) h
  | beginObject => exact absurd (Or.inr rfl) h
  | _ => cases place <;> rfl

/-- They set it where the bracket is expected. -/
theorem step_of_opens (h : Opens tok) (options : ReadOptions) (s : ReadState) :
    s.step options tok = (s.step (unlimited options.order) tok).bind fun s' =>
      if options.maxDepth.any (· < s'.openCount) then .error .tooDeep else .ok s' := by
  have henter : ∀ place frames, place.openCount = 1 →
      ReadState.enter options place frames =
        if options.maxDepth.any (· < (ReadState.mk place frames).openCount) then .error .tooDeep
        else .ok ⟨place, frames⟩ := by
    intro place frames hplace
    rw [ReadState.openCount, hplace, Nat.add_comm, ReadState.enter]
    cases options.maxDepth <;> simp
  obtain ⟨place, frames⟩ := s
  rcases h with rfl | rfl <;> cases place <;> first | exact henter _ _ rfl | rfl

theorem count_of_opens (h : Opens tok) (maxDepth : Option ℕ) (depth : ℕ) :
    count maxDepth depth tok = enter maxDepth depth ∧ tok.levelAfter depth = depth + 1 := by
  rcases h with rfl | rfl <;> exact ⟨rfl, rfl⟩

/-- The counter is moved as the frames are. -/
theorem count_of_not_opens (h : ¬ Opens tok) (hs : s.step (unlimited order) tok = .ok s')
    (maxDepth : Option ℕ) : count maxDepth s.openCount tok = .ok s'.openCount := by
  rw [ReadState.openCount_of_step hs]
  cases tok with
  | beginArray => exact absurd (Or.inl rfl) h
  | beginObject => exact absurd (Or.inr rfl) h
  | endArray => exact if_pos (openCount_pos_of_close hs (Or.inl rfl))
  | endObject => exact if_pos (openCount_pos_of_close hs (Or.inr rfl))
  | _ => rfl

theorem step_eq_match (c : CountedState) (options : ReadOptions) (tok : Token) :
    c.step options tok =
      match c.state.step (unlimited options.order) tok with
      | .error cause => .error (.error cause)
      | .ok state =>
        match count options.maxDepth c.depth tok with
        | .error fault => .error fault
        | .ok depth => .ok ⟨state, depth⟩ := by
  rw [step]
  cases c.state.step (unlimited options.order) tok with
  | error cause => rfl
  | ok state => cases count options.maxDepth c.depth tok <;> rfl

/-- A step by the counter is a step by the frames, and leaves the two in agreement. -/
theorem step_eq (s : ReadState) (options : ReadOptions) (tok : Token) :
    step options ⟨s, s.openCount⟩ tok =
      match s.step options tok with
      | .ok s' => .ok ⟨s', s'.openCount⟩
      | .error cause => .error (.error cause) := by
  rw [step_eq_match]
  by_cases hopens : Opens tok
  · rw [step_of_opens hopens options s]
    cases hs : s.step (unlimited options.order) tok with
    | error cause => rfl
    | ok s' =>
      obtain ⟨hcount, hlevel⟩ := count_of_opens hopens options.maxDepth s.openCount
      have hopen : s'.openCount = s.openCount + 1 := by
        rw [← hlevel, ← ReadState.openCount_of_step hs]
      simp only [hcount, enter, Except.bind, hopen]
      cases options.maxDepth.any (· < s.openCount + 1) with
      | true => rfl
      | false => exact congrArg (fun depth => Except.ok (CountedState.mk s' depth)) hopen.symm
  · rw [step_of_not_opens hopens options s]
    cases hs : s.step (unlimited options.order) tok with
    | error cause => rfl
    | ok s' => simp only [count_of_not_opens hopens hs]

/-! ### Runs -/

/-- A document is read by the counter as it is by the frames, and nothing is counted below zero. -/
theorem run_eq (options : ReadOptions) (s : ReadState) (cur : Cursor) :
    run options ⟨s, s.openCount⟩ cur =
      match s.run options cur with
      | .ok v next => .ok v next
      | .error cause next => .error (.error cause) next := by
  induction hlen : cur.pending.length using Nat.strong_induction_on generalizing s cur with
  | _ len ih =>
  subst hlen
  rw [run]
  split
  case h_1 cause next hscan => rw [ReadState.run_of_scan_error hscan]
  case h_2 tok next hscan =>
    split
    case isTrue htok =>
      subst htok
      rw [ReadState.run_of_scan_end hscan]
      cases s.atEnd <;> rfl
    case isFalse htok =>
      rw [ReadState.run_of_scan hscan htok, step_eq]
      cases s.step options tok with
      | error cause => rfl
      | ok s' => exact ih _ (Token.length_pending_scan_lt hscan htok) s' next rfl

end CountedState

/-- Reading a document by the counter is reading it, so no counter is taken below zero. -/
theorem Document.read_counted (options : ReadOptions) (answers : List Answer) :
    CountedState.start.run options (.start answers) =
      match read options answers with
      | .ok v next => .ok v next
      | .error cause next => .error (.error cause) next :=
  CountedState.run_eq options .start (.start answers)

end JsonDoc
