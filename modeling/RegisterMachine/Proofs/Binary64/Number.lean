import Mathlib.Algebra.Order.Field.Power
import Mathlib.Data.Rat.Cast.Order
import Mathlib.Tactic.Ring
import RegisterMachine.Proofs.Binary64.Nearest

/-!
# The numbers that doubles stand for

The bits of a double as a rational number: a significand of fifty-three bits, the first of which is
hidden, times a power of two. The units of a double are this number counted in the smallest steps
(`value_eq`), and a finite double is told by it up to the sign of zero (`ofInt_of_value`).
-/

namespace RegisterMachine.Binary64

theorem toBits_ofBits (bits : UInt64) : (ofBits bits).toBits = bits := by
  have hbits := bits.toNat_lt
  have hsum : (if (ofBits bits).negative then 2 ^ 63 else 0) + (ofBits bits).magnitude.val =
      bits.toNat := by
    simp only [ofBits, decide_eq_true_eq]
    split_ifs <;> omega
  rw [toBits, hsum, UInt64.ofNat_toNat]

theorem ofBits_injective {bits bits' : UInt64} (h : ofBits bits = ofBits bits') : bits = bits' := by
  rw [← toBits_ofBits bits, h, toBits_ofBits]

/-- The absolute value of a finite double. A subnormal one has no hidden bit and the exponent of the
smallest normal ones. -/
def size (x : Binary64) : ℚ :=
  let exponent : ℕ := x.magnitude.val / 2 ^ 52
  let fraction : ℕ := x.magnitude.val % 2 ^ 52
  if exponent = 0 then fraction * (2 : ℚ) ^ (-1074 : ℤ)
  else ((2 ^ 52 + fraction : ℕ) : ℚ) * (2 : ℚ) ^ ((exponent : ℤ) - 1075)

def value (x : Binary64) : ℚ := if x.negative then -x.size else x.size

theorem size_eq (x : Binary64) : x.size = x.units * (2 : ℚ) ^ (-1074 : ℤ) := by
  unfold size units unitsOf
  dsimp only
  by_cases hsmall : x.magnitude.val < 2 ^ 52
  · have hexponent : x.magnitude.val / 2 ^ 52 = 0 := Nat.div_eq_of_lt hsmall
    have hfraction : x.magnitude.val % 2 ^ 52 = x.magnitude.val := Nat.mod_eq_of_lt hsmall
    rw [if_pos hexponent, if_pos hsmall, hfraction]
  · have hexponent : x.magnitude.val / 2 ^ 52 ≠ 0 := by omega
    have hpower : ((x.magnitude.val / 2 ^ 52 : ℕ) : ℤ) - 1075 =
        ((x.magnitude.val / 2 ^ 52 - 1 : ℕ) : ℤ) + -1074 := by omega
    rw [if_neg hexponent, if_neg hsmall, hpower, zpow_add₀ two_ne_zero, zpow_natCast,
      Nat.cast_mul, Nat.cast_pow, Nat.cast_ofNat, mul_assoc]

theorem value_eq (x : Binary64) : x.value = x.signedUnits * (2 : ℚ) ^ (-1074 : ℤ) := by
  unfold value signedUnits
  rw [size_eq]
  split_ifs
  · rw [Int.cast_neg, Int.cast_natCast, neg_mul]
  · rw [Int.cast_natCast]

theorem unitsPerOne_mul : (unitsPerOne : ℚ) * (2 : ℚ) ^ (-1074 : ℤ) = 1 := by
  have hcancel : ∀ k : ℕ, ((2 ^ k : ℕ) : ℚ) * (2 : ℚ) ^ (-(k : ℤ)) = 1 := by
    intro k
    rw [Nat.cast_pow, Nat.cast_ofNat, zpow_neg, zpow_natCast]
    exact mul_inv_cancel₀ (pow_ne_zero k two_ne_zero)
  unfold unitsPerOne
  exact hcancel 1074

/-- A double stands for an integer if its units make up as many whole ones. -/
theorem value_eq_intCast_iff {x : Binary64} {n : ℤ} :
    x.value = n ↔ x.signedUnits = n * unitsPerOne := by
  have hunit : (2 : ℚ) ^ (-1074 : ℤ) ≠ 0 := zpow_ne_zero _ two_ne_zero
  have hn : (n : ℚ) = ((n * unitsPerOne : ℤ) : ℚ) * (2 : ℚ) ^ (-1074 : ℤ) := by
    rw [Int.cast_mul, Int.cast_natCast, mul_assoc, unitsPerOne_mul, mul_one]
  rw [value_eq, hn, mul_left_inj' hunit, Int.cast_inj]

theorem eq_zero_of_units {x : Binary64} (hfinite : x.isFinite) (hunits : x.units = 0) :
    x = .zero x.negative := by
  have hmagnitude := nearest_units hfinite
  rw [hunits] at hmagnitude
  exact congrArg (mk x.negative) hmagnitude.symm

/-- Finite doubles that stand for one integer are the same, unless they are zeros. -/
theorem ofInt_of_value {x : Binary64} {n : ℤ} (hfinite : x.isFinite) (hvalue : x.value = n)
    (hzero : x ≠ .zero true) : ofInt n = x := by
  have hpos : (0 : ℤ) < unitsPerOne := Int.natCast_pos.mpr unitsPerOne_pos
  have hunits := value_eq_intCast_iff.mp hvalue
  have habs : x.units = n.natAbs * unitsPerOne := by
    rw [← Int.natAbs_natCast unitsPerOne, ← Int.natAbs_mul, ← hunits, signedUnits]
    split_ifs
    · rw [Int.natAbs_neg, Int.natAbs_natCast]
    · rw [Int.natAbs_natCast]
  have hsign : decide (n < 0) = x.negative := by
    rw [signedUnits] at hunits
    cases hx : x.negative with
    | false =>
      have hnonneg : 0 ≤ n * (unitsPerOne : ℤ) := by
        rw [← hunits, hx, if_neg Bool.false_ne_true]
        exact Int.natCast_nonneg _
      exact decide_eq_false (Int.not_lt.mpr (Int.nonneg_of_mul_nonneg_left hnonneg hpos))
    | true =>
      have hne : x.units ≠ 0 := fun h => hzero (hx ▸ eq_zero_of_units hfinite h)
      have hneg : n * (unitsPerOne : ℤ) < 0 := by
        rw [← hunits, hx, if_pos rfl]
        omega
      exact decide_eq_true (Int.neg_of_mul_neg_left hneg hpos)
  have hmagnitude : nearest (n.natAbs * unitsPerOne) 1 = x.magnitude := by
    rw [← habs, nearest_units hfinite]
  exact congrArg₂ mk hsign hmagnitude

end RegisterMachine.Binary64
