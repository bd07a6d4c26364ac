import RegisterMachine.Proofs.Binary64.Nearest

/-!
# Rounding at the end of the range

Rounding to nearest comes to the infinity where it would come to the power of two above the largest
double, that is from the middle between the two on: the middle is a tie, and the largest double is
odd. So the double of an integer is the nearest one or the infinity (`roundsTo_ofInt`).
-/

namespace RegisterMachine.Binary64

variable {numerator denominator : Nat}

/-- A rounded quotient reaches an even number with the tie below it. -/
theorem roundedQuotient_lt_iff (hd : 0 < denominator) {k : Nat} (heven : k % 2 = 0)
    (hpos : 0 < k) :
    roundedQuotient numerator denominator < k ↔ 2 * numerator < (2 * k - 1) * denominator := by
  have hmod := Nat.mod_lt numerator hd
  have hdiv := Nat.div_add_mod' numerator denominator
  have hcases := roundedQuotient_cases numerator denominator
  have htop : (2 * k - 1) * denominator = 2 * ((k - 1) * denominator) + denominator := by
    rw [← Nat.mul_assoc, ← Nat.succ_mul]
    congr 1
    omega
  rcases Nat.lt_trichotomy (numerator / denominator) (k - 1) with hlt | heq | hgt
  · have hle := Nat.mul_le_mul_right denominator hlt
    rw [Nat.succ_mul] at hle
    omega
  · -- Just below the bound the quotient is odd, so that a tie is rounded up to it.
    rw [heq] at hdiv hcases
    have hodd : (k - 1) % 2 = 1 := by omega
    have hround : roundedQuotient numerator denominator =
        if 2 * (numerator % denominator) < denominator then k - 1 else k := by
      simp only [roundedQuotient, heq, hodd]
      split_ifs <;> omega
    rw [hround]
    split_ifs <;> omega
  · have hle := Nat.mul_le_mul_right denominator hgt
    rw [Nat.succ_mul] at hle
    omega

/-- The middle between the largest significand of fifty-three bits, in steps of `2 ^ (top + 1)`
units, and the power of two above it. -/
def middle (top : Nat) : Nat := (2 ^ 54 - 1) * 2 ^ top

theorem mul_two_pow_lt_middle_iff {k top bits : Nat} :
    k * 2 ^ bits < middle (top + bits) ↔ k < middle top := by
  unfold middle
  rw [Nat.pow_add, ← Nat.mul_assoc]
  exact Nat.mul_lt_mul_right (Nat.two_pow_pos bits)

/-- A number of units rounds to a finite double up to the middle above a scale. -/
theorem nearest_lt_iff (units top : Nat) :
    scaleOf units 1 * 2 ^ 52 + roundedQuotient units (1 * 2 ^ scaleOf units 1) <
        (top + 3) * 2 ^ 52 ↔
      units < middle top := by
  unfold middle
  obtain ⟨hlt, hnormal⟩ := scaleOf_bounds units 1
  obtain ⟨hle, hround⟩ := roundedQuotient_bounds units 1
  have hstep : 0 < 1 * 2 ^ scaleOf units 1 := Nat.mul_pos Nat.one_pos (Nat.two_pow_pos _)
  rcases Nat.lt_trichotomy (scaleOf units 1) (top + 1) with hbelow | heq | habove
  · have hpow : 1 * 2 ^ scaleOf units 1 ≤ 2 ^ top := by
      rw [Nat.one_mul]
      exact Nat.pow_le_pow_right (by decide) (by omega)
    have hunits : units < 2 ^ 53 * 2 ^ top := by
      calc units < 2 ^ 53 * (1 * 2 ^ scaleOf units 1) := (Nat.div_lt_iff_lt_mul hstep).mp hlt
        _ ≤ 2 ^ 53 * 2 ^ top := Nat.mul_le_mul_left _ hpow
    omega
  · have hiff := @roundedQuotient_lt_iff units _ hstep (2 ^ 53) (by decide) (by decide)
    have hpow : 1 * 2 ^ scaleOf units 1 = 2 ^ top * 2 := by
      rw [Nat.one_mul, heq, Nat.pow_succ]
    rw [hpow] at hiff hround ⊢
    rw [heq]
    constructor
    · intro hsum
      have := hiff.mp (by omega)
      omega
    · intro hunits
      have := hiff.mpr (by omega)
      omega
  · have hpow : 2 ^ top * 4 ≤ 1 * 2 ^ scaleOf units 1 := by
      rw [Nat.one_mul]
      calc 2 ^ top * 4 = 2 ^ (top + 2) := (Nat.pow_add 2 top 2).symm
        _ ≤ 2 ^ scaleOf units 1 := Nat.pow_le_pow_right (by decide) habove
    have hunits : 2 ^ 52 * (1 * 2 ^ scaleOf units 1) ≤ units :=
      (Nat.le_div_iff_mul_le hstep).mp (hnormal.resolve_left (by omega))
    omega

-- Kept folded, for the power is too large to be evaluated.
@[irreducible]
def overflow : Nat := middle 970

variable {n : Int}

theorem isFinite_ofInt_iff : (ofInt n).isFinite ↔ n.natAbs < overflow := by
  have hval : (ofInt n).magnitude.val = min
      (scaleOf (n.natAbs * unitsPerOne) 1 * 2 ^ 52 + roundedQuotient (n.natAbs * unitsPerOne)
        (1 * 2 ^ scaleOf (n.natAbs * unitsPerOne) 1)) infinityMagnitude := rfl
  have htop : infinityMagnitude = (970 + 1074 + 3) * 2 ^ 52 := rfl
  have hmin (a b : Nat) : min a b < b ↔ a < b := by omega
  rw [isFinite, decide_eq_true_eq, hval, hmin, htop, nearest_lt_iff]
  unfold overflow unitsPerOne
  exact @mul_two_pow_lt_middle_iff n.natAbs 970 1074

/-- The double that an integer is rounded to: none is nearer, but beyond the range it is the
infinity. -/
def RoundsTo (n : Int) (x : Binary64) : Prop :=
  if n.natAbs < overflow then x.IsNearest n else x = infinity (n < 0)

theorem roundsTo_ofInt (n : Int) : RoundsTo n (ofInt n) := by
  by_cases hrange : n.natAbs < overflow
  · rw [RoundsTo, if_pos hrange]
    exact isNearest_ofInt_of_isFinite (isFinite_ofInt_iff.mpr hrange)
  · rw [RoundsTo, if_neg hrange]
    have hle : infinityMagnitude ≤ (ofInt n).magnitude.val := by
      rw [← Nat.not_lt]
      exact fun hlt => hrange (isFinite_ofInt_iff.mp (decide_eq_true hlt))
    have hmagnitude : (ofInt n).magnitude.val = infinityMagnitude :=
      Nat.le_antisymm (Nat.min_le_right ..) hle
    exact congrArg (mk (decide (n < 0))) (Fin.ext hmagnitude)

end RegisterMachine.Binary64
