import JsonDoc.Proofs.Dump.Serializer
import JsonDoc.Source.Basic

/-!
# What a writer with too little room is left with

A writer with room for a count of units takes what there is room for.  Of anything else it takes as
much as fits, or nothing if it takes what it is given as a whole (`Writes`).  So after any number of
calls, of which the first that fails is the last, it is left with as many units as it has room for
(`Writes.ends_of_fillsUp`), or with those of the calls before the first that does not fit
(`Writes.exists_ends`).
-/

namespace JsonDoc

variable {ε σ υ α : Type}

/-! ### Calls one by one -/

section Calls

variable {write : α → EStateM ε σ Unit} {s s' : σ} {a : α} {as : List α}

theorem forM_cons_of_ok (h : write a s = .ok () s') : forM (a :: as) write s = forM as write s' := by
  rw [List.forM_cons]
  change EStateM.bind (write a) (fun _ => forM as write) s = _
  rw [EStateM.bind, h]

theorem forM_cons_of_error {e : ε} (h : write a s = .error e s') :
    forM (a :: as) write s = .error e s' := by
  rw [List.forM_cons]
  change EStateM.bind (write a) (fun _ => forM as write) s = _
  rw [EStateM.bind, h]

/-- A failure is that of one call: those before it were made, and none was after it. -/
theorem exists_of_forM_error {e : ε} (h : forM as write s = .error e s') :
    ∃ before a after s₁, as = before ++ a :: after ∧ forM before write s = .ok () s₁ ∧
      write a s₁ = .error e s' := by
  induction as generalizing s with
  | nil => cases h
  | cons a as ih =>
    cases ha : write a s with
    | error e₁ s₁ =>
      rw [forM_cons_of_error ha] at h
      cases h
      exact ⟨[], a, as, s, rfl, rfl, ha⟩
    | ok _ s₁ =>
      rw [forM_cons_of_ok ha] at h
      obtain ⟨before, failed, after, s₂, rfl, hbefore, hfailed⟩ := ih h
      exact ⟨a :: before, failed, after, s₂, rfl, by rw [forM_cons_of_ok ha, hbefore], hfailed⟩

end Calls

/-! ### Writers with so much room -/

/-- What a writer does that has room for a count of units: it takes what it is given if there is room
for it, and fails if there is not.  Then one that fills up takes as many units as fit, and one that
does not takes none.  The states are described by the units that they have taken and by the room that
is left. -/
structure Writes (write : α → EStateM ε σ Unit) (units : α → List υ)
    (holds : σ → List υ → ℕ → Prop) (fillsUp : Bool) : Prop where
  ok_of_le : ∀ {s taken n a}, holds s taken n → (units a).length ≤ n →
    ∃ s', write a s = .ok () s' ∧ holds s' (taken ++ units a) (n - (units a).length)
  error_of_lt : ∀ {s taken n a}, holds s taken n → n < (units a).length →
    ∃ e s' left, write a s = .error e s' ∧
      holds s' (taken ++ if fillsUp then (units a).take n else []) left

/-- The first of what is given that does not fit, behind what does. -/
structure Overflows (units : α → List υ) (n : ℕ) (as before : List α) (a : α) : Prop where
  exists_after : ∃ after, as = before ++ a :: after
  length_le : (before.flatMap units).length ≤ n
  lt_length : n < ((before ++ [a]).flatMap units).length

/-- Writing ends in a state that has taken these units, and fails iff this holds. -/
structure Ends (r : EStateM.Result ε σ Unit) (holds : σ → List υ → ℕ → Prop) (taken : List υ)
    (fails : Prop) : Prop where
  exists_holds : ∃ left, holds (stateAfter r) taken left
  fails_iff : (∃ e s, r = .error e s) ↔ fails

section Writers

variable {write : α → EStateM ε σ Unit} {units : α → List υ} {holds : σ → List υ → ℕ → Prop}
  {fillsUp : Bool} {s : σ} {taken : List υ} {n : ℕ} {a failed : α} {as before : List α}

theorem Ends.ok {fails : Prop} (hs : holds s taken n) (hfails : ¬ fails) :
    Ends (.ok () s : EStateM.Result ε σ Unit) holds taken fails :=
  ⟨⟨n, hs⟩, iff_of_false (by rintro ⟨e, s', h⟩; cases h) hfails⟩

theorem Ends.error {e : ε} {fails : Prop} (hs : holds s taken n) (hfails : fails) :
    Ends (.error e s) holds taken fails :=
  ⟨⟨n, hs⟩, iff_of_true ⟨e, s, rfl⟩ hfails⟩

theorem Overflows.cons (hroom : (units a).length ≤ n)
    (h : Overflows units (n - (units a).length) as before failed) :
    Overflows units n (a :: as) (a :: before) failed := by
  obtain ⟨⟨after, rfl⟩, hle, hlt⟩ := h
  refine ⟨⟨after, rfl⟩, ?_, ?_⟩
  · rw [List.flatMap_cons, List.length_append]
    omega
  · rw [List.cons_append, List.flatMap_cons, List.length_append]
    omega

/-- More units are written than there is room for. -/
theorem Overflows.lt_length_flatMap (h : Overflows units n as before a) :
    n < (as.flatMap units).length := by
  obtain ⟨⟨after, rfl⟩, -, hlt⟩ := h
  rw [List.append_cons, List.flatMap_append, List.length_append]
  exact Nat.lt_add_right _ hlt

namespace Writes

/-- All units are taken; or those before the first that does not fit are, or all that there is room
for if the writer fills up. -/
theorem forM_cases (hw : Writes write units holds fillsUp) (hs : holds s taken n) (as : List α) :
    ((as.flatMap units).length ≤ n ∧ ∃ s', forM as write s = .ok () s' ∧
        holds s' (taken ++ as.flatMap units) (n - (as.flatMap units).length)) ∨
      ∃ before a, Overflows units n as before a ∧ ∃ e s' left, forM as write s = .error e s' ∧
        holds s' (taken ++ if fillsUp then (as.flatMap units).take n else before.flatMap units)
          left := by
  induction as generalizing s taken n with
  | nil => exact Or.inl ⟨Nat.zero_le n, s, rfl, by rwa [List.flatMap_nil, List.append_nil]⟩
  | cons a as ih =>
    rw [List.flatMap_cons, List.length_append]
    by_cases hroom : (units a).length ≤ n
    · obtain ⟨s₁, hwrite, hs₁⟩ := hw.ok_of_le hs hroom
      rw [forM_cons_of_ok hwrite, List.take_append, List.take_of_length_le hroom]
      rcases ih hs₁ with ⟨hle, s', hrun, hs'⟩ | ⟨before, failed, hover, e, s', left, hrun, hs'⟩
      · refine Or.inl ⟨by omega, s', hrun, ?_⟩
        rwa [← List.append_assoc, ← Nat.sub_sub]
      · refine Or.inr ⟨a :: before, failed, hover.cons hroom, e, s', left, hrun, ?_⟩
        rw [List.append_assoc] at hs'
        rw [List.flatMap_cons]
        cases fillsUp <;> exact hs'
    · have hlt := Nat.lt_of_not_le hroom
      obtain ⟨e, s', left, hwrite, hs'⟩ := hw.error_of_lt hs hlt
      refine Or.inr ⟨[], a, ⟨⟨as, rfl⟩, Nat.zero_le n, by simpa using hlt⟩, e, s', left,
        forM_cons_of_error hwrite, ?_⟩
      rw [List.take_append_of_le_length hlt.le]
      exact hs'

/-- A writer that fills up is left with as many units as it has room for. -/
theorem ends_of_fillsUp (hw : Writes write units holds true) (hs : holds s [] n) (as : List α) :
    Ends (forM as write s) holds ((as.flatMap units).take n) (n < (as.flatMap units).length) := by
  rcases hw.forM_cases hs as with ⟨hle, s', hrun, hs'⟩ | ⟨before, a, hover, e, s', left, hrun, hs'⟩
  · rw [hrun, List.take_of_length_le hle]
    exact .ok hs' hle.not_gt
  · rw [hrun]
    exact .error hs' hover.lt_length_flatMap

/-- A writer that takes what it is given as a whole is left with what there is before the first that
does not fit. -/
theorem exists_ends (hw : Writes write units holds false) (hs : holds s [] n) (as : List α) :
    ∃ before after, as = before ++ after ∧
      Ends (forM as write s) holds (before.flatMap units) (n < (as.flatMap units).length) ∧
      (before.flatMap units).length ≤ n ∧
      ∀ a ∈ after.head?, n < ((before ++ [a]).flatMap units).length := by
  rcases hw.forM_cases hs as with ⟨hle, s', hrun, hs'⟩ | ⟨before, a, hover, e, s', left, hrun, hs'⟩
  · refine ⟨as, [], (List.append_nil as).symm, ?_, hle, nofun⟩
    rw [hrun]
    exact .ok hs' hle.not_gt
  · obtain ⟨after, heq⟩ := hover.exists_after
    refine ⟨before, a :: after, heq, ?_, hover.length_le, ?_⟩
    · rw [hrun]
      exact .error hs' hover.lt_length_flatMap
    · rintro _ ⟨⟩
      exact hover.lt_length

/-- A writer of units takes texts by the units of their characters. -/
theorem ofUnits {writeAll : List υ → EStateM ε σ Unit} (hw : Writes writeAll id holds fillsUp)
    (encode : Char → List υ) :
    Writes (CharSink.ofUnits encode writeAll).writeStr (·.flatMap encode) holds fillsUp :=
  ⟨hw.ok_of_le, hw.error_of_lt⟩

/-- A writer of characters takes texts one by one. -/
theorem ofChars {writeChar : Char → EStateM ε σ Unit} {encode : Char → List υ}
    (hw : Writes writeChar encode holds true) :
    Writes (CharSink.ofChars writeChar).writeStr (·.flatMap encode) holds true where
  ok_of_le := by
    intro s taken n cs hs hle
    rcases hw.forM_cases hs cs with ⟨-, hrun⟩ | ⟨before, a, hover, -⟩
    · exact hrun
    · exact absurd hle hover.lt_length_flatMap.not_ge
  error_of_lt := by
    intro s taken n cs hs hlt
    rcases hw.forM_cases hs cs with ⟨hle, -⟩ | ⟨before, a, -, e, s', left, hrun, hs'⟩
    · exact absurd hle hlt.not_ge
    · exact ⟨e, s', left, hrun, hs'⟩

end Writes

end Writers

end JsonDoc
