import JsonDoc.Binary64.Basic

/-!
# Rounding to the nearest number

`roundHalfEven n d` is the whole number nearest to `n / d`, a tie going to the even one.
`Magnitude.nearest? n d` is the magnitude nearest to `n / d` units: it rounds to a whole number of
steps, where a step is as many units as there are between neighbours at that place.
-/

namespace JsonDoc

/-- The whole number nearest to `n / d`, where of two that are equally near the even one is taken. -/
def roundHalfEven (n d : Nat) : Nat :=
  if 2 * (n % d) < d then n / d
  else if d < 2 * (n % d) then n / d + 1
  else n / d + n / d % 2

/-- The rounded number is within half of the quotient. -/
theorem roundHalfEven_bounds (n : Nat) {d : Nat} (hd : 0 < d) :
    2 * n ≤ (2 * roundHalfEven n d + 1) * d ∧ 2 * roundHalfEven n d * d ≤ 2 * n + d := by
  have h := Nat.div_add_mod n d
  have hm := Nat.mod_lt n hd
  unfold roundHalfEven
  generalize n / d = q at *
  generalize n % d = r at *
  have he : d * q = q * d := Nat.mul_comm ..
  split
  · grind
  · split
    · grind
    · have : q % 2 < 2 := Nat.mod_lt _ (by decide)
      obtain h0 | h1 : q % 2 = 0 ∨ q % 2 = 1 := by omega
      · rw [h0]; grind
      · rw [h1]; grind

/-- The magnitude nearest to `n / d` units, of two that are equally near the even one, or nothing
where the nearest is no longer finite. -/
def Magnitude.nearest? (n d : Nat) : Option Magnitude :=
  let doublings := (n / d).log2 - 52
  let code := stride * doublings + roundHalfEven n (d <<< doublings)
  if h : code < infinityCode then some ⟨code, h⟩ else none

namespace Binary64

/-- The number nearest to `n / d` units with a sign, infinite where that is too large. -/
def nearest (negative : Bool) (n d : Nat) : Binary64 :=
  match Magnitude.nearest? n d with
  | some m => finite negative m
  | none => infinite negative

end Binary64

end JsonDoc
