import RegisterMachine.Binary64.Basic

/-!
# Rounding a quotient of units

`nearest` depends on the value of the quotient only (`nearest_mul`), and the units of a finite
double round to that double (`nearest_units`).
-/

namespace RegisterMachine.Binary64

theorem roundedQuotient_mul {k : Nat} (hk : 0 < k) (numerator denominator : Nat) :
    roundedQuotient (k * numerator) (k * denominator) = roundedQuotient numerator denominator := by
  have hlt : 2 * (k * (numerator % denominator)) < k * denominator ↔
      2 * (numerator % denominator) < denominator := by
    rw [Nat.mul_left_comm, Nat.mul_lt_mul_left hk]
  have heq : 2 * (k * (numerator % denominator)) = k * denominator ↔
      2 * (numerator % denominator) = denominator := by
    rw [Nat.mul_left_comm, Nat.mul_right_inj (Nat.ne_of_gt hk)]
  simp only [roundedQuotient, Nat.mul_div_mul_left _ _ hk, Nat.mul_mod_mul_left, hlt, heq]

theorem scaleOf_mul {k : Nat} (hk : 0 < k) (numerator denominator : Nat) :
    scaleOf (k * numerator) (k * denominator) = scaleOf numerator denominator := by
  rw [scaleOf, Nat.mul_div_mul_left _ _ hk, scaleOf]

/-- Equal quotients round to the same double. -/
theorem nearest_mul {k : Nat} (hk : 0 < k) (numerator denominator : Nat) :
    nearest (k * numerator) (k * denominator) = nearest numerator denominator := by
  simp only [nearest, scaleOf_mul hk, Nat.mul_assoc, roundedQuotient_mul hk]

/-- A whole quotient is not rounded. -/
theorem roundedQuotient_mul_right {denominator : Nat} (h : 0 < denominator) (n : Nat) :
    roundedQuotient (n * denominator) denominator = n := by
  simp [roundedQuotient, Nat.mul_div_cancel _ h, h]

/-- The leading bit of a normal number of units stands above the steps of its exponent. -/
theorem log2_units (fraction step : Nat) (h : fraction < 2 ^ 52) :
    ((2 ^ 52 + fraction) * 2 ^ step).log2 = 52 + step := by
  have hpos : 0 < 2 ^ step := Nat.two_pow_pos step
  have hne : (2 ^ 52 + fraction) * 2 ^ step ≠ 0 := by
    have : 0 < (2 ^ 52 + fraction) * 2 ^ step := Nat.mul_pos (by omega) hpos
    omega
  rw [Nat.log2_eq_iff hne]
  constructor
  · rw [Nat.pow_add]
    exact Nat.mul_le_mul_right _ (Nat.le_add_right _ _)
  · rw [show 52 + step + 1 = 53 + step by omega, Nat.pow_add]
    exact Nat.mul_lt_mul_of_pos_right (by omega) hpos

theorem nearest_unitsOf {magnitude : Nat} (h : magnitude < infinityMagnitude) :
    (nearest (unitsOf magnitude) 1).val = magnitude := by
  have hmin : min magnitude infinityMagnitude = magnitude := Nat.min_eq_left (Nat.le_of_lt h)
  by_cases hsmall : magnitude < 2 ^ 52
  · -- below `2 ^ 52` the magnitude is the number of units and the scale is zero
    have hlog : magnitude.log2 - 52 = 0 := by
      by_cases hzero : magnitude = 0
      · rw [hzero, Nat.log2_zero]
      · exact Nat.sub_eq_zero_of_le (Nat.le_of_lt ((Nat.log2_lt hzero).mpr hsmall))
    have hround : roundedQuotient magnitude 1 = magnitude := by
      simpa using roundedQuotient_mul_right Nat.one_pos magnitude
    simp only [nearest, unitsOf, if_pos hsmall, scaleOf, Nat.div_one, hlog, Nat.zero_mul,
      Nat.zero_add, Nat.pow_zero, Nat.mul_one, hround]
    exact hmin
  · -- from there on the scale is the exponent, and the hidden bit carries into it
    have hpow : 1 * 2 ^ (magnitude / 2 ^ 52 - 1) = 2 ^ (magnitude / 2 ^ 52 - 1) := Nat.one_mul _
    have hlog := log2_units (magnitude % 2 ^ 52) (magnitude / 2 ^ 52 - 1)
      (Nat.mod_lt _ (by decide))
    have hscale : 52 + (magnitude / 2 ^ 52 - 1) - 52 = magnitude / 2 ^ 52 - 1 := by omega
    simp only [nearest, unitsOf, if_neg hsmall, scaleOf, Nat.div_one, hlog, hscale, hpow,
      roundedQuotient_mul_right (Nat.two_pow_pos _)]
    have hsum : (magnitude / 2 ^ 52 - 1) * 2 ^ 52 + (2 ^ 52 + magnitude % 2 ^ 52) = magnitude := by
      omega
    rw [hsum]
    exact hmin

theorem nearest_units {x : Binary64} (h : x.isFinite) : nearest x.units 1 = x.magnitude :=
  Fin.ext (nearest_unitsOf (by simpa [isFinite] using h))

theorem unitsOf_lt (magnitude : Nat) :
    unitsOf magnitude < 2 ^ (53 + magnitude / 2 ^ 52) := by
  rw [Nat.pow_add]
  unfold unitsOf
  split
  · next hsmall =>
    calc magnitude < 2 ^ 52 := hsmall
      _ ≤ 2 ^ 53 := by decide
      _ ≤ 2 ^ 53 * 2 ^ (magnitude / 2 ^ 52) := Nat.le_mul_of_pos_right _ (Nat.two_pow_pos _)
  · have hfraction : 2 ^ 52 + magnitude % 2 ^ 52 < 2 ^ 53 := by omega
    have hstep : 2 ^ (magnitude / 2 ^ 52 - 1) ≤ 2 ^ (magnitude / 2 ^ 52) :=
      Nat.pow_le_pow_right (by decide) (Nat.sub_le _ _)
    exact Nat.mul_lt_mul_of_lt_of_le hfraction hstep (Nat.two_pow_pos _)

theorem exists_units_lt {x : Binary64} (h : x.isFinite) : ∃ k ≤ 2099, x.units < 10 ^ k := by
  have hm : x.magnitude.val < infinityMagnitude := of_decide_eq_true h
  refine ⟨53 + x.magnitude.val / 2 ^ 52, ?_, ?_⟩
  · unfold infinityMagnitude at hm
    omega
  · exact Nat.lt_of_lt_of_le (unitsOf_lt x.magnitude) (Nat.pow_le_pow_left (by decide) _)

end RegisterMachine.Binary64
