import RegisterMachine.Proofs.Binary64.Rounding
import RegisterMachine.Binary64.Decimal

/-!
# The shortest decimal of a double

Whichever decimal the search for the shortest one ends with, it denotes the double it was searched
for (`magnitude_shortest`), and its order is small (`order_shortest`), so that the exponent of its
literal is read without loss.
-/

namespace RegisterMachine

namespace Decimal

theorem digitCount_pos (n : Nat) : 0 < digitCount n :=
  List.length_pos_iff.mpr Nat.toDigits_ne_nil

theorem ten_pow_pos (k : Nat) : 0 < 10 ^ k := Nat.pow_pos (by decide)

theorem five_pow_le (k : Nat) : 5 ^ k ≤ 10 ^ k := Nat.pow_le_pow_left (by decide) k

theorem digitCount_le {n k : Nat} (hk : 0 < k) (h : n < 10 ^ k) : digitCount n ≤ k :=
  (Nat.length_toDigits_le_iff (by decide) hk).mpr h

theorem magnitude_ofNat {digits zeros : Nat} (h : zeros ≤ 1100) :
    (⟨digits, (zeros : Int)⟩ : Decimal).magnitude =
      Binary64.nearest (digits * 10 ^ zeros * Binary64.unitsPerOne) 1 := by
  have hzeros : (zeros : Int).toNat = zeros := Int.toNat_natCast zeros
  rw [magnitude, if_neg (by dsimp only; omega), if_neg (by dsimp only; omega),
    if_pos (Int.natCast_nonneg zeros)]
  dsimp only
  rw [hzeros]

theorem magnitude_neg {digits places : Nat} (hpos : 0 < places)
    (hle : places ≤ 1100 + digitCount digits) :
    (⟨digits, -(places : Int)⟩ : Decimal).magnitude =
      Binary64.nearest (digits * Binary64.unitsPerOne) (10 ^ places) := by
  have hplaces : (- -(places : Int)).toNat = places := by omega
  rw [magnitude, if_neg (by dsimp only; omega), if_neg (by dsimp only; omega),
    if_neg (by dsimp only; omega)]
  dsimp only
  rw [hplaces]

theorem magnitude_zero : (⟨0, 0⟩ : Decimal).magnitude = ⟨0, by decide⟩ := by
  have hmag := @magnitude_ofNat 0 0 (by decide)
  simp only [Nat.zero_mul] at hmag
  exact hmag.trans (Fin.ext (@Binary64.nearest_unitsOf 0 (by decide)))

theorem nearest_five_pow (units places : Nat) :
    Binary64.nearest (units * 5 ^ places * 2 ^ places) (10 ^ places) =
      Binary64.nearest units 1 := by
  have hscale : units * 5 ^ places * 2 ^ places = 10 ^ places * units := by
    rw [Nat.mul_assoc, ← Nat.mul_pow, Nat.mul_comm]
  have hmul := Binary64.nearest_mul (ten_pow_pos places) units 1
  rw [hscale]
  rwa [Nat.mul_one] at hmul

theorem magnitude_exact (units : Nat) : (exact units).magnitude = Binary64.nearest units 1 := by
  have hmag := @magnitude_neg (units * 5 ^ 1074) 1074 (by decide)
    (Nat.le_add_right_of_le (by decide))
  rw [Binary64.unitsPerOne] at hmag
  exact hmag.trans (nearest_five_pow units 1074)

theorem mul_ten_pow_lt {n k : Nat} (h : n < 10 ^ k) (places : Nat) :
    n * 10 ^ places < 10 ^ (k + places) := by
  rw [Nat.pow_add]
  exact Nat.mul_lt_mul_of_pos_right h (ten_pow_pos places)

theorem orderOf_bounds {units k : Nat} (h : units < 10 ^ k) :
    -399 ≤ orderOf units ∧ orderOf units ≤ k := by
  have hpos := digitCount_pos (units * 10 ^ 400 / Binary64.unitsPerOne)
  have hle : digitCount (units * 10 ^ 400 / Binary64.unitsPerOne) ≤ k + 400 :=
    digitCount_le (by omega)
      (Nat.lt_of_le_of_lt (Nat.div_le_self _ _) (mul_ten_pow_lt h 400))
  unfold orderOf
  omega

/-- A neighbour has no more digits than the number of units scaled to its grid, and a carry. -/
theorem order_neighbours {units k : Nat} (h : units < 10 ^ k) {exponent : Int} {d : Decimal}
    (hd : d ∈ neighbours units exponent) :
    exponent < d.order ∧ d.order ≤ exponent + (k + (-exponent).toNat + 1) := by
  -- The quotient is at most its numerator, and the neighbour above it is one more.
  have hnumerator := mul_ten_pow_lt h (-exponent).toNat
  have hfloor := Nat.div_le_self (units * 10 ^ (-exponent).toNat)
    (Binary64.unitsPerOne * 10 ^ exponent.toNat)
  have hd' : d.exponent = exponent ∧ d.digits ≤ 10 ^ (k + (-exponent).toNat) := by
    unfold neighbours at hd
    dsimp only at hd
    split at hd
    all_goals
      simp only [List.mem_cons, List.not_mem_nil, or_false] at hd
      rcases hd with rfl | rfl
      · exact ⟨rfl, by dsimp only; omega⟩
      · exact ⟨rfl, by dsimp only; omega⟩
  obtain ⟨hexponent, hdigits⟩ := hd'
  have hpos := digitCount_pos d.digits
  have hle : digitCount d.digits ≤ k + (-exponent).toNat + 1 :=
    digitCount_le (Nat.succ_pos _)
      (Nat.lt_of_le_of_lt hdigits (Nat.pow_lt_pow_succ (by decide)))
  unfold order
  omega

end Decimal

namespace Binary64

variable {x : Binary64}

/-- The search for the shortest decimal has three ends: zero, a neighbour on a grid of powers of ten
that reads back, and the double in full. -/
theorem shortest_cases (x : Binary64) :
    x.isZero ∧ x.shortest = ⟨0, 0⟩ ∨
      (∃ n < 18, x.shortest ∈ Decimal.neighbours x.units (Decimal.orderOf x.units - (n : Nat)) ∧
        x.shortest.magnitude = x.magnitude) ∨
      x.shortest = Decimal.exact x.units := by
  unfold shortest
  by_cases hz : x.isZero
  · exact Or.inl ⟨hz, by rw [if_pos hz]⟩
  · rw [if_neg hz]
    dsimp only
    cases hfound : (List.range 18).findSome? fun (n : Nat) =>
        (Decimal.neighbours x.units (Decimal.orderOf x.units - n)).find? fun d =>
          decide (d.magnitude = x.magnitude) with
    | none => exact Or.inr (Or.inr rfl)
    | some d =>
      obtain ⟨n, hn, hd⟩ := List.exists_of_findSome?_eq_some hfound
      have hback : d.magnitude = x.magnitude := by simpa using List.find?_some hd
      exact Or.inr (Or.inl ⟨n, List.mem_range.mp hn, List.mem_of_find?_eq_some hd, hback⟩)

theorem magnitude_shortest (h : x.isFinite) : x.shortest.magnitude = x.magnitude := by
  rcases shortest_cases x with ⟨hz, hd⟩ | ⟨_, _, _, hd⟩ | hd
  · rw [hd, Decimal.magnitude_zero]
    exact Fin.ext (beq_iff_eq.mp hz).symm
  · exact hd
  · rw [hd, Decimal.magnitude_exact, nearest_units h]

theorem order_shortest (h : x.isFinite) :
    -2000 ≤ x.shortest.order ∧ x.shortest.order ≤ 5000 := by
  obtain ⟨k, hk, hlt⟩ := exists_units_lt h
  -- Bounds in powers of ten are enough; the doubles end far below them.
  rcases shortest_cases x with ⟨_, hd⟩ | ⟨n, hn, hmem, _⟩ | hd
  · rw [hd]
    decide
  · have horder := Decimal.orderOf_bounds hlt
    have := Decimal.order_neighbours hlt hmem
    omega
  · have hpos := Decimal.digitCount_pos (x.units * 5 ^ 1074)
    have hle : Decimal.digitCount (x.units * 5 ^ 1074) ≤ k + 1074 :=
      Decimal.digitCount_le (by omega)
        (Nat.lt_of_le_of_lt (Nat.mul_le_mul_left _ (Decimal.five_pow_le 1074))
          (Decimal.mul_ten_pow_lt hlt 1074))
    rw [hd]
    unfold Decimal.order Decimal.exact
    dsimp only
    omega

end Binary64

end RegisterMachine
