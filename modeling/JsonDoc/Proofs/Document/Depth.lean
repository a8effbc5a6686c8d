import Mathlib.Logic.Relation
import JsonDoc.Proofs.Document.Completeness
import JsonDoc.Proofs.Document.Nesting
import JsonDoc.Proofs.Token.Cause
import JsonDoc.Proofs.Token.Extent

/-!
# The limit of open containers

A run with a limit takes the steps of the run without one, up to the bracket that opens one
container too many (`ReadState.run_limited`).  So a limit only ever stops the reading at that
bracket, and for a text that is a document whether it does depends on the nesting of its brackets
(`Document.parse_limited`).
-/

namespace JsonDoc

/-! ### Open containers -/

/-- The container that a place itself belongs to, counted. -/
def Place.openCount : Place → ℕ
  | .value => 0
  | .complete _ => 0
  | _ => 1

namespace ReadState

open Document

/-- The count of containers that are open. -/
def openCount (s : ReadState) : ℕ := s.place.openCount + s.frames.length

variable {order : MemberOrder} {s s' s'' : ReadState} {tok : Token} {frames : List Frame}
  {most n m : ℕ} {cs us : List Char} {v : Value} {cur next : Cursor} {peeked : Bool}

theorem openCount_supply (order : MemberOrder) (v : Value) (frames : List Frame) :
    (supply order v frames).openCount = frames.length := by
  cases frames with
  | nil => rfl
  | cons frame frames => cases frame <;> exact Nat.add_comm _ _

theorem openCount_of_stepValue (h : stepValue (unlimited order) frames tok = .ok s) :
    s.openCount = tok.levelAfter frames.length := by
  cases tok with
  | null | true | false | integer i | float x | string t =>
    cases h
    exact openCount_supply _ _ _
  | beginArray | beginObject =>
    cases h
    exact Nat.add_comm _ _
  | _ => cases h

/-- A step without a limit opens and closes containers as the token does. -/
theorem openCount_of_step (h : s.step (unlimited order) tok = .ok s') :
    s'.openCount = tok.levelAfter s.openCount := by
  obtain ⟨place, frames⟩ := s
  cases place with
  | value =>
    have hopen := openCount_of_stepValue h
    rw [hopen, openCount, Place.openCount, Nat.zero_add]
  | arrayStart =>
    by_cases htok : tok = .endArray
    · subst htok
      cases h
      exact (openCount_supply _ _ _).trans (Nat.add_sub_cancel_left _ _).symm
    · rw [(alikeBut_arrayStart frames).step_eq tok htok] at h
      exact (openCount_of_stepValue h).trans (congrArg (tok.levelAfter ·) (Nat.add_comm _ _))
  | arrayNext reversed =>
    rcases step_arrayNext h with ⟨rfl, rfl⟩ | ⟨rfl, rfl⟩
    · exact (openCount_supply _ _ _).trans (Nat.add_sub_cancel_left _ _).symm
    · exact (Nat.zero_add _).trans (Nat.add_comm _ _)
  | objectStart =>
    by_cases htok : tok = .endObject
    · subst htok
      cases h
      exact (openCount_supply _ _ _).trans (Nat.add_sub_cancel_left _ _).symm
    · rw [(alikeBut_objectStart frames).step_eq tok htok] at h
      obtain ⟨key, rfl, rfl⟩ := step_key h
      rfl
  | key members =>
    obtain ⟨key, rfl, rfl⟩ := step_key h
    rfl
  | colon members key =>
    obtain ⟨rfl, rfl⟩ := step_colon h
    exact (Nat.zero_add _).trans (Nat.add_comm _ _)
  | objectNext members =>
    rcases step_objectNext h with ⟨rfl, rfl⟩ | ⟨rfl, rfl⟩
    · exact (openCount_supply _ _ _).trans (Nat.add_sub_cancel_left _ _).symm
    · rfl
  | complete v => cases h

/-! ### One step with a limit -/

/-- The outcome of a step, unless too many containers are open after it. -/
def checked (most : ℕ) (r : Except Cause ReadState) : Except Cause ReadState :=
  match r with
  | .ok s => if most < s.openCount then .error .tooDeep else .ok s
  | .error cause => .error cause

theorem checked_of_le (h : s.openCount ≤ most) : checked most (.ok s) = .ok s :=
  if_neg (not_lt.mpr h)

theorem eq_checked_step {r : Except Cause ReadState} (heq : r = s.step (unlimited order) tok)
    (h : ∀ s', r = .ok s' → tok.levelAfter s.openCount ≤ most) :
    r = checked most (s.step (unlimited order) tok) := by
  subst heq
  cases hstep : s.step (unlimited order) tok with
  | ok s' => exact (checked_of_le ((openCount_of_step hstep).trans_le (h s' hstep))).symm
  | error cause => rfl

theorem enter_limited (order : MemberOrder) (most : ℕ) {place : Place} (h : place.openCount = 1)
    (frames : List Frame) :
    enter ⟨order, some most⟩ place frames =
      checked most (enter (unlimited order) place frames) := by
  have hopen : openCount ⟨place, frames⟩ = frames.length + 1 := by
    rw [openCount, h, Nat.add_comm]
  unfold enter checked
  simp only [unlimited, hopen]

theorem stepValue_limited (h : frames.length ≤ most) (tok : Token) :
    stepValue ⟨order, some most⟩ frames tok =
      checked most (stepValue (unlimited order) frames tok) := by
  cases tok with
  | null | true | false | integer i | float x | string t =>
    exact (checked_of_le ((openCount_supply _ _ _).trans_le h)).symm
  | beginArray | beginObject =>
    exact enter_limited order most rfl frames
  | _ => rfl

/-- A limit only stops a step after which too many containers are open. -/
theorem step_limited (h : s.openCount ≤ most) (tok : Token) :
    s.step ⟨order, some most⟩ tok = checked most (s.step (unlimited order) tok) := by
  obtain ⟨place, frames⟩ := s
  have hclose : ReadState.openCount ⟨place, frames⟩ - 1 ≤ most := (Nat.sub_le _ _).trans h
  cases place with
  | value => exact stepValue_limited (by simpa [openCount, Place.openCount] using h) tok
  | arrayStart =>
    by_cases htok : tok = .endArray
    · subst htok
      exact eq_checked_step rfl fun _ _ => hclose
    · have hvalue : (Frame.element [] :: frames).length ≤ most := by
        rw [List.length_cons, Nat.add_comm]
        exact h
      rw [(alikeBut_arrayStart frames).step_eq tok htok,
        (alikeBut_arrayStart frames).step_eq tok htok]
      exact stepValue_limited hvalue tok
  | objectStart =>
    refine eq_checked_step rfl fun s' hs' => ?_
    by_cases htok : tok = .endObject
    · subst htok
      exact hclose
    · rw [(alikeBut_objectStart frames).step_eq tok htok] at hs'
      obtain ⟨key, rfl, -⟩ := step_key hs'
      exact h
  | arrayNext reversed =>
    refine eq_checked_step rfl fun s' hs' => ?_
    rcases step_arrayNext hs' with ⟨rfl, -⟩ | ⟨rfl, -⟩
    · exact hclose
    · exact h
  | objectNext members =>
    refine eq_checked_step rfl fun s' hs' => ?_
    rcases step_objectNext hs' with ⟨rfl, -⟩ | ⟨rfl, -⟩
    · exact hclose
    · exact h
  | key members =>
    refine eq_checked_step rfl fun s' hs' => ?_
    obtain ⟨key, rfl, -⟩ := step_key hs'
    exact h
  | colon members key =>
    refine eq_checked_step rfl fun s' hs' => ?_
    obtain ⟨rfl, -⟩ := step_colon hs'
    exact h
  | complete v => rfl

/-! ### Visited states -/

/-- One token takes the state at a cursor to the next state. -/
inductive Advances (options : ReadOptions) : ReadState × Cursor → ReadState × Cursor → Prop
  | mk {s s' : ReadState} {cur next : Cursor} {tok : Token}
      (hscan : Token.scan cur = .ok tok next) (htok : tok ≠ .endOfInput)
      (hstep : s.step options tok = .ok s') : Advances options (s, cur) (s', next)

/-- The run without a limit comes from one state to another. -/
def Visits (order : MemberOrder) : ReadState × Cursor → ReadState × Cursor → Prop :=
  Relation.ReflTransGen (Advances (unlimited order))

/-- This is where the run without a limit first has so many containers open. -/
structure FirstOpens (order : MemberOrder) (count : ℕ) (here there : ReadState × Cursor) :
    Prop where
  visits : Visits order here there
  openCount_eq : there.1.openCount = count
  first : ∀ x, Visits order here x → x.2.offset < there.2.offset → x.1.openCount < count

variable {x y z : ReadState × Cursor}

theorem Advances.unique {options : ReadOptions} (hy : Advances options x y)
    (hz : Advances options x z) : y = z := by
  cases hy with
  | mk hscan _ hstep =>
    cases hz with
    | mk hscan' _ hstep' =>
      cases hscan.symm.trans hscan'
      cases hstep.symm.trans hstep'
      rfl

/-- What is visited is the state itself, or visited from the next. -/
theorem Visits.eq_or (h : Visits order x z) (hy : Advances (unlimited order) x y) :
    z = x ∨ Visits order y z := by
  rcases Relation.ReflTransGen.cases_head h with heq | ⟨y', hy', hz⟩
  · exact Or.inl heq.symm
  · exact Or.inr (hy.unique hy' ▸ hz)

theorem Visits.eq_of_stuck (h : Visits order x z) (hno : ∀ y, ¬ Advances (unlimited order) x y) :
    z = x := by
  rcases Relation.ReflTransGen.cases_head h with heq | ⟨y, hy, -⟩
  · exact heq.symm
  · exact absurd hy (hno y)

/-- A scan of a text uses a part of it up, and moves the level there as its token does. -/
theorem exists_level_of_scan (h : Token.scan ⟨Answer.chars cs, n, peeked⟩ = .ok tok next) :
    ∃ used left q, cs = used ++ left ∧ next = ⟨Answer.chars left, n + used.length, q⟩ ∧
      ScansTo cs tok left ∧
      ∀ level, levelFrom .outside level used = (.outside, tok.levelAfter level) := by
  obtain ⟨used, left, q, rfl, rfl⟩ := Token.exists_split_of_scan h
  obtain ⟨v, m, q', hnext, hscans⟩ := exists_scansTo h
  obtain rfl : left = v := Answer.chars_injective (congrArg Cursor.pending hnext)
  refine ⟨used, left, q, rfl, rfl, hscans, fun level => ?_⟩
  obtain ⟨used', heq, hlevel⟩ := hscans.exists_levelFrom level
  rwa [List.append_cancel_right heq]

/-- The cursors of a text are at its places, and the containers that are open there are those whose
brackets are. -/
theorem Visits.exists_split (h : Visits order (s, ⟨Answer.chars cs, n, peeked⟩) x) :
    ∃ used left q, cs = used ++ left ∧ x.2 = ⟨Answer.chars left, n + used.length, q⟩ ∧
      levelFrom .outside s.openCount used = (.outside, x.1.openCount) := by
  induction h with
  | refl => exact ⟨[], cs, peeked, rfl, rfl, rfl⟩
  | tail _ hadv ih =>
    obtain ⟨used, left, q, rfl, hcur, hlevel⟩ := ih
    cases hadv with
    | mk hscan _ hstep =>
      subst hcur
      obtain ⟨used', left', q', rfl, rfl, -, hlevel'⟩ := exists_level_of_scan hscan
      refine ⟨used ++ used', left', q', (List.append_assoc _ _ _).symm,
        by rw [List.length_append, Nat.add_assoc], ?_⟩
      rw [levelFrom_append, hlevel, hlevel', openCount_of_step hstep]

theorem Visits.offset_le (h : Visits order (s, ⟨Answer.chars cs, n, peeked⟩) x) :
    n ≤ x.2.offset := by
  obtain ⟨used, left, q, -, hcur, -⟩ := h.exists_split
  rw [hcur]
  exact Nat.le_add_right _ _

/-- Before a limit is first exceeded behind one token, only the state before it is visited. -/
theorem FirstOpens.of_advances (h : s.openCount ≤ most)
    (hadv : Advances (unlimited order) (s, cur) (s', ⟨Answer.chars cs, n, peeked⟩))
    (hopen : s'.openCount = most + 1) :
    FirstOpens order (most + 1) (s, cur) (s', ⟨Answer.chars cs, n, peeked⟩) where
  visits := .single hadv
  openCount_eq := hopen
  first x hx hlt := by
    rcases hx.eq_or hadv with rfl | hx
    · exact Nat.lt_succ_of_le h
    · exact absurd hx.offset_le (not_le.mpr hlt)

theorem FirstOpens.head (h : x.1.openCount ≤ most) (hadv : Advances (unlimited order) x y)
    (hfirst : FirstOpens order (most + 1) y z) : FirstOpens order (most + 1) x z where
  visits := .head hadv hfirst.visits
  openCount_eq := hfirst.openCount_eq
  first w hw hlt := by
    rcases hw.eq_or hadv with rfl | hw
    · exact Nat.lt_succ_of_le h
    · exact hfirst.first w hw hlt

/-- There is one place only where so many containers are first open. -/
theorem FirstOpens.offset_unique {count : ℕ} (hy : FirstOpens order count x y)
    (hz : FirstOpens order count x z) : y.2.offset = z.2.offset := by
  by_contra hne
  rcases lt_or_gt_of_ne hne with hlt | hlt
  · exact (hz.first y hy.visits hlt).ne hy.openCount_eq
  · exact (hy.first z hz.visits hlt).ne hz.openCount_eq

/-! ### Runs with a limit -/

theorem openCount_le_succ_of_step (h : s.step (unlimited order) tok = .ok s') :
    s'.openCount ≤ s.openCount + 1 := by
  rw [openCount_of_step h]
  cases tok <;> simp only [Token.levelAfter] <;> omega

/-- A run with a limit stops where the run without one first exceeds it.  If that never does, the
two are the same. -/
theorem run_limited (order : MemberOrder) (h : s.openCount ≤ most) (cs : List Char) (n : ℕ)
    (peeked : Bool) :
    (∃ x, FirstOpens order (most + 1) (s, ⟨Answer.chars cs, n, peeked⟩) x ∧
        s.run ⟨order, some most⟩ ⟨Answer.chars cs, n, peeked⟩ = .error .tooDeep x.2) ∨
      (∀ x, Visits order (s, ⟨Answer.chars cs, n, peeked⟩) x → x.1.openCount ≤ most) ∧
        s.run ⟨order, some most⟩ ⟨Answer.chars cs, n, peeked⟩ =
          s.run (unlimited order) ⟨Answer.chars cs, n, peeked⟩ := by
  induction hlen : cs.length using Nat.strong_induction_on generalizing s cs n peeked with
  | _ len ih =>
  subst hlen
  -- no other state is visited unless a token takes this one to it
  have hstop : (∀ y, ¬ Advances (unlimited order) (s, ⟨Answer.chars cs, n, peeked⟩) y) →
      ∀ x, Visits order (s, ⟨Answer.chars cs, n, peeked⟩) x → x.1.openCount ≤ most := by
    intro hno x hx
    rw [hx.eq_of_stuck hno]
    exact h
  cases hscan : Token.scan ⟨Answer.chars cs, n, peeked⟩ with
  | error cause next =>
    right
    refine ⟨hstop ?_, by rw [run_of_scan_error hscan, run_of_scan_error hscan]⟩
    rintro _ ⟨hscan', -, -⟩
    cases hscan.symm.trans hscan'
  | ok tok next =>
    by_cases htok : tok = .endOfInput
    · subst htok
      right
      refine ⟨hstop ?_, by rw [run_of_scan_end hscan, run_of_scan_end hscan]⟩
      rintro _ ⟨hscan', htok, -⟩
      cases hscan.symm.trans hscan'
      exact htok rfl
    rw [run_of_scan hscan htok, run_of_scan hscan htok, step_limited h]
    cases hstep : s.step (unlimited order) tok with
    | error cause =>
      right
      refine ⟨hstop ?_, rfl⟩
      rintro _ ⟨hscan', -, hstep'⟩
      cases hscan.symm.trans hscan'
      cases hstep.symm.trans hstep'
    | ok s' =>
      have hadv := Advances.mk hscan htok hstep
      have hlt := Token.length_pending_scan_lt hscan htok
      obtain ⟨used, left, q, hcs, rfl⟩ := Token.exists_split_of_scan hscan
      simp only [Answer.chars, List.length_map] at hlt
      rcases Nat.lt_or_ge most s'.openCount with hdeep | hopen
      · have hcount : s'.openCount = most + 1 :=
          ((openCount_le_succ_of_step hstep).trans (Nat.succ_le_succ h)).antisymm hdeep
        left
        refine ⟨_, .of_advances h hadv hcount, ?_⟩
        rw [checked, if_pos hdeep]
      · rw [checked_of_le hopen]
        rcases ih left.length hlt hopen left (n + used.length) q rfl with
          ⟨x, hfirst, hrun⟩ | ⟨hall, hrun⟩
        · exact Or.inl ⟨x, hfirst.head h hadv, hrun⟩
        · refine Or.inr ⟨fun x hx => ?_, hrun⟩
          rcases hx.eq_or hadv with rfl | hx
          · exact h
          · exact hall x hx

/-! ### Runs without a limit -/

theorem step_unlimited_ne_tooDeep (order : MemberOrder) (s : ReadState) (tok : Token) :
    s.step (unlimited order) tok ≠ .error .tooDeep := by
  obtain ⟨place, frames⟩ := s
  cases place <;> cases tok <;> nofun

/-- Without a limit no document is too deep. -/
theorem run_unlimited_ne_tooDeep (order : MemberOrder) (s : ReadState) (cur next : Cursor) :
    s.run (unlimited order) cur ≠ .error .tooDeep next := by
  induction hlen : cur.pending.length using Nat.strong_induction_on generalizing s cur with
  | _ len ih =>
  subst hlen
  intro h
  cases hscan : Token.scan cur with
  | error cause fin =>
    rw [run_of_scan_error hscan] at h
    cases h
    exact Token.scan_ne_tooDeep _ _ hscan
  | ok tok fin =>
    by_cases htok : tok = .endOfInput
    · subst htok
      rw [run_of_scan_end hscan] at h
      obtain ⟨place, frames⟩ := s
      cases place <;> cases h
    · rw [run_of_scan hscan htok] at h
      cases hstep : s.step (unlimited order) tok with
      | error cause =>
        rw [hstep] at h
        cases h
        exact step_unlimited_ne_tooDeep order s tok hstep
      | ok s' =>
        rw [hstep] at h
        exact ih _ (Token.length_pending_scan_lt hscan htok) s' fin rfl h

/-- A run that accepts keeps to a limit iff the brackets that are left do. -/
theorem Accepts.openCount_le_iff (h : s.Accepts (unlimited order) cs v) (n : ℕ) (peeked : Bool) :
    (∀ x, Visits order (s, ⟨Answer.chars cs, n, peeked⟩) x → x.1.openCount ≤ most) ↔
      nestingFrom .outside s.openCount cs ≤ most := by
  induction hlen : cs.length using Nat.strong_induction_on generalizing s cs n peeked with
  | _ len ih =>
  subst hlen
  obtain ⟨tok, us, hscans, hend⟩ := h.exists_step
  obtain ⟨m, q, hscan⟩ := hscans.exists_scan n peeked
  rw [hscans.nestingFrom_eq, max_le_iff]
  rcases hend with ⟨rfl, -⟩ | ⟨htok, s', hstep, haccepts⟩
  · have hnil : us = [] := by
      cases hscans with
      | endOfInput hw => rfl
      | token hw ht => cases ht
      | number hw hu ht =>
        rcases NumberLiteral.denotes_of_token ht with ⟨i, h, -⟩ | ⟨x, h, -⟩ <;> cases h
    subst hnil
    refine ⟨fun hall => ⟨hall _ .refl, hall _ .refl⟩, fun hle x hx => ?_⟩
    rw [hx.eq_of_stuck ?_]
    · exact hle.1
    · rintro _ ⟨hscan', htok, -⟩
      cases hscan.symm.trans hscan'
      exact htok rfl
  · have hadv := Advances.mk hscan htok hstep
    have hlt := Token.length_pending_scan_lt hscan htok
    simp only [Answer.chars, List.length_map] at hlt
    rw [← openCount_of_step hstep, ← ih us.length hlt haccepts m q rfl]
    constructor
    · intro hall
      exact ⟨hall _ .refl, fun x hx => hall x (.head hadv hx)⟩
    · rintro ⟨hle, hall⟩ x hx
      rcases hx.eq_or hadv with rfl | hx
      · exact hle
      · exact hall x hx

/-- A container is opened just after its bracket. -/
theorem FirstOpens.exists_bracket {x : ReadState × Cursor}
    (h : FirstOpens order (most + 1) (start, ⟨Answer.chars cs, 0, false⟩) x) :
    ∃ before c after, cs = before ++ c :: after ∧ (c = '[' ∨ c = '{') ∧
      x.2.offset = before.length + 1 := by
  obtain ⟨hvisits, hcount, hfirst⟩ := h
  rcases Relation.ReflTransGen.cases_tail hvisits with rfl | ⟨y, hy, hadv⟩
  · cases hcount
  obtain ⟨used, left, q, rfl, hcur, -⟩ := Visits.exists_split hy
  cases hadv with
  | @mk s s' cur next tok hscan htok hstep =>
    subst hcur
    have hlt := Token.length_pending_scan_lt hscan htok
    obtain ⟨used', left', q', rfl, rfl, hscans, -⟩ := exists_level_of_scan hscan
    have hbefore : s.openCount < most + 1 := by
      refine hfirst _ hy ?_
      simp only [Answer.chars, List.length_map, List.length_append] at hlt ⊢
      omega
    have hlevel := openCount_of_step hstep
    obtain ⟨w, c, heq, hbracket⟩ := hscans.exists_bracket
      (hbefore.trans_eq (hcount.symm.trans hlevel))
    refine ⟨used ++ w, c, left', by rw [heq, List.append_assoc], hbracket, ?_⟩
    have hlen : used'.length = w.length + 1 := by
      have := congrArg List.length heq
      simp only [List.length_append, List.length_cons] at this
      omega
    simp only [hlen, List.length_append]
    omega

end ReadState

/-! ### Documents with a limit -/

namespace Document

open ReadState

/-- The state and the place where the reading of a text begins. -/
def beginning (text : String) : ReadState × Cursor :=
  (start, ⟨Answer.chars text.toList, 0, false⟩)

variable {order : MemberOrder} {most : ℕ} {text : String} {v : Value}

theorem parse_ne_tooDeep (order : MemberOrder) (text : String) (n : ℕ) :
    parse order text ≠ .error ⟨.tooDeep, n⟩ := by
  rw [parse_eq_result]
  cases hrun : start.run (unlimited order) ⟨Answer.chars text.toList, 0, false⟩ with
  | ok v fin => nofun
  | error cause fin =>
    rintro ⟨⟩
    exact run_unlimited_ne_tooDeep order _ _ _ hrun

/-- Reading with a limit stops at the bracket that exceeds it, or goes as reading without one. -/
theorem parse_limited_cases (order : MemberOrder) (most : ℕ) (text : String) :
    (∃ x, FirstOpens order (most + 1) (beginning text) x ∧
        parseSource ⟨order, some most⟩ text.toList = .error ⟨.tooDeep, x.2.offset⟩) ∨
      (∀ x, Visits order (beginning text) x → x.1.openCount ≤ most) ∧
        parseSource ⟨order, some most⟩ text.toList = parse order text := by
  rw [parseSource_eq_result, parse_eq_result]
  have hstart : start.openCount ≤ most := Nat.zero_le most
  rcases run_limited order hstart text.toList 0 false with
    ⟨x, hfirst, hrun⟩ | ⟨hall, hrun⟩
  · exact Or.inl ⟨x, hfirst, by rw [hrun, result]⟩
  · exact Or.inr ⟨hall, by rw [hrun]⟩

/-- A text that is read keeps to a limit iff its brackets are nested no deeper. -/
theorem openCount_le_iff_of_parse (h : parse order text = .ok v) :
    (∀ x, Visits order (beginning text) x → x.1.openCount ≤ most) ↔ nesting text ≤ most :=
  (accepts_of_parse h).openCount_le_iff 0 false

theorem parse_limited_eq_ok_iff :
    parseSource ⟨order, some most⟩ text.toList = .ok v ↔
      parse order text = .ok v ∧ nesting text ≤ most := by
  rcases parse_limited_cases order most text with ⟨x, hfirst, hlimited⟩ | ⟨hall, hlimited⟩
  · rw [hlimited]
    refine ⟨nofun, fun ⟨hv, hle⟩ => ?_⟩
    have hopen := (openCount_le_iff_of_parse hv).mpr hle x hfirst.visits
    rw [hfirst.openCount_eq] at hopen
    exact absurd hopen (Nat.not_succ_le_self most)
  · rw [hlimited]
    exact ⟨fun hv => ⟨hv, (openCount_le_iff_of_parse hv).mp hall⟩, And.left⟩

/-- The containers that are open are those whose brackets are, wherever reading a text comes to.  A
limit is exceeded iff reading without one has more of them open, just after the bracket that first
does; and otherwise it has no effect.  So a text is read with a limit iff it is read without one and
its brackets are nested no deeper, and then with every greater limit as well. -/
theorem parse_limited (order : MemberOrder) (most : ℕ) (text : String) :
    (∀ x, Visits order (beginning text) x → ∃ used left, text.toList = used ++ left ∧
      x.2.offset = used.length ∧ x.1.openCount = level used) ∧
    ((∃ n, parseSource ⟨order, some most⟩ text.toList = .error ⟨.tooDeep, n⟩) ↔
      ∃ x, Visits order (beginning text) x ∧ x.1.openCount = most + 1) ∧
    (∀ n, parseSource ⟨order, some most⟩ text.toList = .error ⟨.tooDeep, n⟩ →
      ∃ x, FirstOpens order (most + 1) (beginning text) x ∧ x.2.offset = n ∧
        ∃ before c after, text.toList = before ++ c :: after ∧ (c = '[' ∨ c = '{') ∧
          n = before.length + 1) ∧
    ((∀ n, parseSource ⟨order, some most⟩ text.toList ≠ .error ⟨.tooDeep, n⟩) →
      parseSource ⟨order, some most⟩ text.toList = parse order text) ∧
    (∀ v, parseSource ⟨order, some most⟩ text.toList = .ok v ↔
      parse order text = .ok v ∧ nesting text ≤ most) ∧
    ∀ more v, most ≤ more → parseSource ⟨order, some most⟩ text.toList = .ok v →
      parseSource ⟨order, some more⟩ text.toList = .ok v := by
  have hlevel : ∀ x, Visits order (beginning text) x → ∃ used left,
      text.toList = used ++ left ∧ x.2.offset = used.length ∧ x.1.openCount = level used := by
    intro x hx
    obtain ⟨used, left, q, htext, hcur, hlevel⟩ := hx.exists_split
    refine ⟨used, left, htext, by rw [hcur, Nat.zero_add], ?_⟩
    rw [level, show 0 = start.openCount from rfl, hlevel]
  have hraise : ∀ more v, most ≤ more → parseSource ⟨order, some most⟩ text.toList = .ok v →
      parseSource ⟨order, some more⟩ text.toList = .ok v := by
    intro more v hle hv
    obtain ⟨hparse, hnesting⟩ := parse_limited_eq_ok_iff.mp hv
    exact parse_limited_eq_ok_iff.mpr ⟨hparse, hnesting.trans hle⟩
  rcases parse_limited_cases order most text with ⟨x, hfirst, hlimited⟩ | ⟨hall, hlimited⟩
  · refine ⟨hlevel,
      ⟨fun _ => ⟨x, hfirst.visits, hfirst.openCount_eq⟩, fun _ => ⟨_, hlimited⟩⟩,
      fun n hn => ?_, fun hne => absurd hlimited (hne _), fun v => parse_limited_eq_ok_iff, hraise⟩
    cases hlimited.symm.trans hn
    exact ⟨x, hfirst, rfl, hfirst.exists_bracket⟩
  · have hne : ∀ n, parseSource ⟨order, some most⟩ text.toList ≠ .error ⟨.tooDeep, n⟩ := by
      intro n
      rw [hlimited]
      exact parse_ne_tooDeep order text n
    refine ⟨hlevel, ⟨fun ⟨n, hn⟩ => absurd hn (hne n), fun ⟨x, hx, hcount⟩ => ?_⟩,
      fun n hn => absurd hn (hne n), fun _ => hlimited, fun v => parse_limited_eq_ok_iff, hraise⟩
    exact absurd (hcount.symm.trans_le (hall x hx)) (Nat.not_succ_le_self most)

-- the brackets of the string do not count, and the error is behind the third that is open at once
example :
    (match parseSource ⟨.insertion, some 2⟩ "[\"[[\", [], [0, [1]], tru".toList with
    | .error e => some e
    | .ok _ => none) = some ⟨.tooDeep, 16⟩ := by decide +kernel

end Document

end JsonDoc
