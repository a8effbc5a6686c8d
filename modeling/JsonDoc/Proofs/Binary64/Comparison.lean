import JsonDoc.Proofs.Binary64.Tolerance

/-!
# The order of numbers of which nearly equal ones are equal

Distances and larger magnitudes do not depend on which number comes first, so nearly equal numbers
are so either way around (`Binary64.nearlyEqual_comm`), and the order of two numbers is reversed
when they are (`Binary64.nearlyCompare?_swap`).
-/

namespace JsonDoc.Binary64

variable {x y : Binary64}

/-! ### Numbers the other way around -/

theorem compare?_swap (x y : Binary64) : y.compare? x = (x.compare? y).map Ordering.swap := by
  unfold compare?
  cases x.rank? with
  | none => cases y.rank? <;> rfl
  | some a =>
    cases y.rank? with
    | none => rfl
    | some b => exact congrArg some (Int.compare_swap a b).symm

theorem eq_symm (x y : Binary64) : x.eq y = y.eq x := by
  rw [eq, eq, compare?_swap x y]
  rcases x.compare? y with _ | (_ | _ | _) <;> rfl

theorem distance_comm (x y : Binary64) : x.distance y = y.distance x := by
  cases x with
  | nan => cases y <;> rfl
  | infinite s =>
    cases y with
    | infinite t => cases s <;> cases t <;> rfl
    | _ => rfl
  | finite s m =>
    cases y with
    | finite t k => rw [distance, distance, ← Int.natAbs_neg, neg_sub]
    | _ => rfl

/-- Of two magnitudes the larger one does not depend on which comes first. -/
theorem max_abs_comm (hx : x ≠ nan) (hy : y ≠ nan) : x.abs.max y.abs = y.abs.max x.abs := by
  cases x with
  | nan => exact absurd rfl hx
  | infinite s => exact (max_infinite y).1.trans (max_infinite y).2.symm
  | finite s m =>
    cases y with
    | nan => exact absurd rfl hy
    | infinite t => exact (max_infinite (finite s m)).2.trans (max_infinite (finite s m)).1.symm
    | finite t k =>
      have hle : (finite false m).le (finite false k) = true ↔ (m.code : ℤ) ≤ k.code :=
        le_iff rfl rfl
      have hge : (finite false k).le (finite false m) = true ↔ (k.code : ℤ) ≤ m.code :=
        le_iff rfl rfl
      simp only [abs, max, reduceCtorEq, if_false, hle, hge]
      obtain ⟨a, ha⟩ := m
      obtain ⟨b, hb⟩ := k
      rcases lt_trichotomy a b with hlt | rfl | hgt
      · rw [if_pos (by exact_mod_cast hlt.le), if_neg (by exact_mod_cast hlt.not_ge)]
      · rfl
      · rw [if_neg (by exact_mod_cast hgt.not_ge), if_pos (by exact_mod_cast hgt.le)]

/-! ### Nearly equal numbers -/

theorem nearlyEqual_comm (x y : Binary64) : x.nearlyEqual y = y.nearlyEqual x := by
  by_cases hx : x = nan
  · subst hx
    rw [nearlyEqual_nan_left, nearlyEqual_nan_right]
  by_cases hy : y = nan
  · subst hy
    rw [nearlyEqual_nan_left, nearlyEqual_nan_right]
  simp only [nearlyEqual]
  rw [eq_symm x y, distance_comm x y, max_abs_comm hx hy]

/-- Every number but not-a-number is nearly equal to itself. -/
theorem nearlyEqual_self (hx : x ≠ nan) : x.nearlyEqual x = true := by
  have heq : x.eq x = true := by
    cases x with
    | nan => exact absurd rfl hx
    | infinite s => exact (eq_iff rfl rfl).mpr rfl
    | finite s m => exact (eq_iff rfl rfl).mpr rfl
  rw [nearlyEqual, heq]
  rfl

theorem nearlyCompare?_swap (x y : Binary64) :
    y.nearlyCompare? x = (x.nearlyCompare? y).map Ordering.swap := by
  rw [nearlyCompare?, nearlyCompare?, nearlyEqual_comm y x]
  split
  case isTrue => rfl
  case isFalse => exact compare?_swap x y

/-- Numbers are of equal order iff they are nearly equal. -/
theorem nearlyCompare?_eq_some_eq_iff :
    x.nearlyCompare? y = some .eq ↔ x.nearlyEqual y = true := by
  rw [nearlyCompare?]
  split
  case isTrue h => exact iff_of_true rfl h
  case isFalse h =>
    refine iff_of_false (fun hcompare => h ?_) h
    rw [nearlyEqual, eq, hcompare]
    rfl

end JsonDoc.Binary64
