import Mathlib.Data.Nat.Dist
import RegisterMachine.Proofs.Binary64.Rounding

/-!
# Rounding to nearest

No finite double comes nearer to a quotient of units than the one that `nearest` answers, and if
another comes as near the answer is the even one. So the double of an integer is correctly rounded
(`isNearest_ofInt`), and exact as far as fifty-three bits reach (`signedUnits_ofInt`).
-/

namespace RegisterMachine.Binary64

variable {numerator denominator : Nat}

theorem roundedQuotient_cases (numerator denominator : Nat) :
    (roundedQuotient numerator denominator = numerator / denominator ∧
        2 * (numerator % denominator) ≤ denominator) ∨
      (roundedQuotient numerator denominator = numerator / denominator + 1 ∧
        denominator ≤ 2 * (numerator % denominator)) := by
  simp only [roundedQuotient]
  split_ifs with hlt heq
  · exact Or.inl ⟨rfl, Nat.le_of_lt hlt⟩
  · rcases Nat.mod_two_eq_zero_or_one (numerator / denominator) with hm | hm
    · exact Or.inl ⟨by rw [hm, Nat.add_zero], Nat.le_of_eq heq⟩
    · exact Or.inr ⟨by rw [hm], Nat.le_of_eq heq.symm⟩
  · exact Or.inr ⟨rfl, by omega⟩

/-- Where a multiple lies: beside the quotient, or at least one step further away. -/
theorem multiple_cases (k floor step : Nat) :
    k * step + step ≤ floor * step ∨ k = floor ∨ k = floor + 1 ∨
      floor * step + 2 * step ≤ k * step := by
  rcases Nat.lt_trichotomy k floor with hlt | heq | hgt
  · apply Or.inl
    have hle := Nat.mul_le_mul_right step hlt
    rwa [Nat.succ_mul] at hle
  · exact Or.inr (Or.inl heq)
  · by_cases hk : k = floor + 1
    · exact Or.inr (Or.inr (Or.inl hk))
    · apply Or.inr ∘ Or.inr ∘ Or.inr
      have hle := Nat.mul_le_mul_right step (show floor + 2 ≤ k by omega)
      rwa [Nat.add_mul] at hle

/-- No multiple of the denominator is nearer to the numerator than the rounded one. -/
theorem dist_roundedQuotient_le (hd : 0 < denominator) (k : Nat) :
    Nat.dist numerator (roundedQuotient numerator denominator * denominator) ≤
      Nat.dist numerator (k * denominator) := by
  have hmod := Nat.mod_lt numerator hd
  have hdiv := Nat.div_add_mod' numerator denominator
  unfold Nat.dist
  rcases roundedQuotient_cases numerator denominator with ⟨he, hr⟩ | ⟨he, hr⟩
  · rw [he]
    rcases multiple_cases k (numerator / denominator) denominator with hk | rfl | rfl | hk
    · omega
    · omega
    · rw [Nat.succ_mul]
      omega
    · omega
  · rw [he, Nat.succ_mul]
    rcases multiple_cases k (numerator / denominator) denominator with hk | rfl | rfl | hk
    · omega
    · omega
    · rw [Nat.succ_mul]
    · omega

/-- If another multiple is as near, the rounded quotient is even. -/
theorem even_roundedQuotient (hd : 0 < denominator) {k : Nat}
    (hk : k ≠ roundedQuotient numerator denominator)
    (he : Nat.dist numerator (roundedQuotient numerator denominator * denominator) =
      Nat.dist numerator (k * denominator)) :
    roundedQuotient numerator denominator % 2 = 0 := by
  have hmod := Nat.mod_lt numerator hd
  have hdiv := Nat.div_add_mod' numerator denominator
  have hsucc : (numerator / denominator + 1) * denominator =
      numerator / denominator * denominator + denominator := Nat.succ_mul ..
  unfold Nat.dist at he
  by_cases htie : 2 * (numerator % denominator) = denominator
  · simp only [roundedQuotient, htie, lt_irrefl, if_true, if_false]
    omega
  · exfalso
    rcases roundedQuotient_cases numerator denominator with ⟨hq, hr⟩ | ⟨hq, hr⟩
    · rw [hq] at he hk
      rcases multiple_cases k (numerator / denominator) denominator with h | rfl | rfl | h
      · omega
      · exact hk rfl
      · omega
      · omega
    · rw [hq] at he hk
      rcases multiple_cases k (numerator / denominator) denominator with h | rfl | rfl | h
      · omega
      · omega
      · exact hk rfl
      · omega

/-- At its scale a quotient keeps at most fifty-three bits, and all of them unless the scale is
zero. -/
theorem scaleOf_bounds (numerator denominator : Nat) :
    numerator / (denominator * 2 ^ scaleOf numerator denominator) < 2 ^ 53 ∧
      (scaleOf numerator denominator = 0 ∨
        2 ^ 52 ≤ numerator / (denominator * 2 ^ scaleOf numerator denominator)) := by
  rw [← Nat.div_div_eq_div_mul, scaleOf]
  generalize numerator / denominator = quotient
  have hpos : 0 < 2 ^ (quotient.log2 - 52) := Nat.two_pow_pos _
  constructor
  · rw [Nat.div_lt_iff_lt_mul hpos, ← Nat.pow_add]
    calc quotient < 2 ^ (quotient.log2 + 1) := Nat.lt_log2_self
      _ ≤ 2 ^ (53 + (quotient.log2 - 52)) := Nat.pow_le_pow_right (by decide) (by omega)
  · by_cases hscale : quotient.log2 - 52 = 0
    · exact Or.inl hscale
    · apply Or.inr
      have hne : quotient ≠ 0 := by
        rintro rfl
        exact hscale (by rw [Nat.log2_zero])
      rw [Nat.le_div_iff_mul_le hpos, ← Nat.pow_add]
      calc 2 ^ (52 + (quotient.log2 - 52)) = 2 ^ quotient.log2 := by congr 1; omega
        _ ≤ quotient := Nat.log2_self_le hne

theorem roundedQuotient_bounds (numerator denominator : Nat) :
    roundedQuotient numerator (denominator * 2 ^ scaleOf numerator denominator) ≤ 2 ^ 53 ∧
      (scaleOf numerator denominator = 0 ∨
        2 ^ 52 ≤ roundedQuotient numerator (denominator * 2 ^ scaleOf numerator denominator)) := by
  obtain ⟨hlt, hle⟩ := scaleOf_bounds numerator denominator
  rcases roundedQuotient_cases numerator (denominator * 2 ^ scaleOf numerator denominator) with
    ⟨hq, _⟩ | ⟨hq, _⟩
  · rw [hq]
    exact ⟨Nat.le_of_lt hlt, hle⟩
  · rw [hq]
    exact ⟨hlt, hle.imp_right Nat.le_succ_of_le⟩

/-- The units of a fraction at a scale, the hidden bit and a carry into the exponent included. -/
theorem unitsOf_scaled {scale fraction : Nat} (hle : fraction ≤ 2 ^ 53)
    (hnormal : scale = 0 ∨ 2 ^ 52 ≤ fraction) :
    unitsOf (scale * 2 ^ 52 + fraction) = fraction * 2 ^ scale := by
  unfold unitsOf
  by_cases hsmall : scale * 2 ^ 52 + fraction < 2 ^ 52
  · have hscale : scale = 0 := by omega
    rw [if_pos hsmall, hscale, Nat.zero_mul, Nat.zero_add, Nat.pow_zero, Nat.mul_one]
  · rw [if_neg hsmall]
    by_cases hcarry : fraction = 2 ^ 53
    · have hdiv : (scale * 2 ^ 52 + fraction) / 2 ^ 52 - 1 = 1 + scale := by omega
      have hmod : (scale * 2 ^ 52 + fraction) % 2 ^ 52 = 0 := by omega
      rw [hdiv, hmod, hcarry, Nat.pow_add, ← Nat.mul_assoc]
    · have hdiv : (scale * 2 ^ 52 + fraction) / 2 ^ 52 - 1 = scale := by omega
      have hmod : 2 ^ 52 + (scale * 2 ^ 52 + fraction) % 2 ^ 52 = fraction := by omega
      rw [hdiv, hmod]

theorem val_nearest (hfinite : (nearest numerator denominator).val < infinityMagnitude) :
    (nearest numerator denominator).val =
      scaleOf numerator denominator * 2 ^ 52 +
        roundedQuotient numerator (denominator * 2 ^ scaleOf numerator denominator) := by
  simp only [nearest] at hfinite ⊢
  omega

theorem unitsOf_nearest (hfinite : (nearest numerator denominator).val < infinityMagnitude) :
    unitsOf (nearest numerator denominator).val =
      roundedQuotient numerator (denominator * 2 ^ scaleOf numerator denominator) *
        2 ^ scaleOf numerator denominator := by
  obtain ⟨hle, hnormal⟩ := roundedQuotient_bounds numerator denominator
  rw [val_nearest hfinite, unitsOf_scaled hle hnormal]

/-- The doubles from a scale on are multiples of its step; the others lie below all that have that
scale. -/
theorem unitsOf_grid (magnitude scale : Nat) :
    (∃ k, unitsOf magnitude = k * 2 ^ scale) ∨
      (0 < scale ∧ unitsOf magnitude < 2 ^ 52 * 2 ^ scale) := by
  unfold unitsOf
  by_cases hsmall : magnitude < 2 ^ 52
  · rw [if_pos hsmall]
    rcases Nat.eq_zero_or_pos scale with rfl | hscale
    · exact Or.inl ⟨magnitude, (Nat.mul_one _).symm⟩
    · exact Or.inr ⟨hscale, Nat.lt_of_lt_of_le hsmall
        (Nat.le_mul_of_pos_right _ (Nat.two_pow_pos scale))⟩
  · rw [if_neg hsmall]
    by_cases hstep : scale ≤ magnitude / 2 ^ 52 - 1
    · apply Or.inl
      refine ⟨(2 ^ 52 + magnitude % 2 ^ 52) * 2 ^ (magnitude / 2 ^ 52 - 1 - scale), ?_⟩
      rw [Nat.mul_assoc, ← Nat.pow_add, Nat.sub_add_cancel hstep]
    · refine Or.inr ⟨by omega, ?_⟩
      have hfraction : 2 ^ 52 + magnitude % 2 ^ 52 < 2 ^ 53 := by omega
      calc (2 ^ 52 + magnitude % 2 ^ 52) * 2 ^ (magnitude / 2 ^ 52 - 1)
          < 2 ^ 53 * 2 ^ (magnitude / 2 ^ 52 - 1) :=
            Nat.mul_lt_mul_of_pos_right hfraction (Nat.two_pow_pos _)
        _ = 2 ^ 52 * 2 ^ (magnitude / 2 ^ 52 - 1 + 1) := by
            rw [← Nat.pow_add, ← Nat.pow_add]
            congr 1
            omega
        _ ≤ 2 ^ 52 * 2 ^ scale :=
            Nat.mul_le_mul_left _ (Nat.pow_le_pow_right (by decide) (by omega))

/-- A double below the scale of a quotient is further away from it than the double that `nearest`
answers. -/
theorem dist_lt_of_below (hd : 0 < denominator)
    (hfinite : (nearest numerator denominator).val < infinityMagnitude) {units : Nat}
    (hscale : 0 < scaleOf numerator denominator)
    (hbelow : units < 2 ^ 52 * 2 ^ scaleOf numerator denominator) :
    Nat.dist numerator (denominator * unitsOf (nearest numerator denominator).val) <
      Nat.dist numerator (denominator * units) := by
  have hstep : 0 < denominator * 2 ^ scaleOf numerator denominator :=
    Nat.mul_pos hd (Nat.two_pow_pos _)
  have hnormal := (scaleOf_bounds numerator denominator).2.resolve_left (Nat.ne_of_gt hscale)
  have hle := (Nat.le_div_iff_mul_le hstep).mp hnormal
  have hnearest := @dist_roundedQuotient_le numerator _ hstep (2 ^ 52)
  have hunits : denominator * units <
      2 ^ 52 * (denominator * 2 ^ scaleOf numerator denominator) := by
    rw [Nat.mul_left_comm]
    exact Nat.mul_lt_mul_of_pos_left hbelow hd
  rw [unitsOf_nearest hfinite, Nat.mul_left_comm]
  unfold Nat.dist at hnearest ⊢
  omega

theorem dist_nearest_le (hd : 0 < denominator)
    (hfinite : (nearest numerator denominator).val < infinityMagnitude) (magnitude : Nat) :
    Nat.dist numerator (denominator * unitsOf (nearest numerator denominator).val) ≤
      Nat.dist numerator (denominator * unitsOf magnitude) := by
  rcases unitsOf_grid magnitude (scaleOf numerator denominator) with ⟨k, hk⟩ | ⟨hscale, hbelow⟩
  · have hstep : 0 < denominator * 2 ^ scaleOf numerator denominator :=
      Nat.mul_pos hd (Nat.two_pow_pos _)
    rw [hk, unitsOf_nearest hfinite, Nat.mul_left_comm, Nat.mul_left_comm denominator k]
    exact dist_roundedQuotient_le hstep k
  · exact Nat.le_of_lt (dist_lt_of_below hd hfinite hscale hbelow)

theorem even_nearest (hd : 0 < denominator)
    (hfinite : (nearest numerator denominator).val < infinityMagnitude) {magnitude : Nat}
    (hne : unitsOf magnitude ≠ unitsOf (nearest numerator denominator).val)
    (he : Nat.dist numerator (denominator * unitsOf (nearest numerator denominator).val) =
      Nat.dist numerator (denominator * unitsOf magnitude)) :
    (nearest numerator denominator).val % 2 = 0 := by
  rcases unitsOf_grid magnitude (scaleOf numerator denominator) with ⟨k, hk⟩ | ⟨hscale, hbelow⟩
  · have hstep : 0 < denominator * 2 ^ scaleOf numerator denominator :=
      Nat.mul_pos hd (Nat.two_pow_pos _)
    rw [hk, unitsOf_nearest hfinite] at hne
    rw [hk, unitsOf_nearest hfinite, Nat.mul_left_comm, Nat.mul_left_comm denominator k] at he
    have heven := even_roundedQuotient hstep (fun h => hne (by rw [h])) he
    rw [val_nearest hfinite]
    omega
  · exact absurd he (Nat.ne_of_lt (dist_lt_of_below hd hfinite hscale hbelow))

/-- A quotient far below the largest double does not round to the infinity. -/
theorem nearest_lt_infinity (h : (numerator / denominator).log2 < 2090) :
    (nearest numerator denominator).val < infinityMagnitude := by
  have hle := (roundedQuotient_bounds numerator denominator).1
  have hrounded : scaleOf numerator denominator * 2 ^ 52 +
      roundedQuotient numerator (denominator * 2 ^ scaleOf numerator denominator) <
        infinityMagnitude := by
    have hscale : scaleOf numerator denominator ≤ 2038 := by
      unfold scaleOf
      omega
    unfold infinityMagnitude
    omega
  exact Nat.lt_of_le_of_lt (Nat.min_le_left ..) hrounded

theorem unitsOf_nearest_of_dvd (hfinite : (nearest numerator 1).val < infinityMagnitude)
    (hdvd : 2 ^ scaleOf numerator 1 ∣ numerator) :
    unitsOf (nearest numerator 1).val = numerator := by
  obtain ⟨k, hk⟩ := hdvd
  have hround : roundedQuotient numerator (1 * 2 ^ scaleOf numerator 1) = k := by
    have hmul := roundedQuotient_mul_right (Nat.two_pow_pos (scaleOf numerator 1)) k
    rwa [Nat.mul_comm, ← hk, ← Nat.one_mul (2 ^ scaleOf numerator 1)] at hmul
  rw [unitsOf_nearest hfinite, hround, Nat.mul_comm, ← hk]

/-- The double is finite and none is nearer to the integer; if another is as near, it is even. -/
structure IsNearest (x : Binary64) (n : Int) : Prop where
  finite : x.isFinite
  le : ∀ y : Binary64, y.isFinite →
    (x.signedUnits - n * unitsPerOne).natAbs ≤ (y.signedUnits - n * unitsPerOne).natAbs
  even : ∀ y : Binary64, y.isFinite → y.signedUnits ≠ x.signedUnits →
    (x.signedUnits - n * unitsPerOne).natAbs = (y.signedUnits - n * unitsPerOne).natAbs →
    x.magnitude.val % 2 = 0

theorem unitsPerOne_pos : 0 < unitsPerOne := by
  unfold unitsPerOne
  exact Nat.two_pow_pos 1074

theorem two_pow_dvd_unitsPerOne {scale : Nat} (h : scale ≤ 1074) : 2 ^ scale ∣ unitsPerOne := by
  unfold unitsPerOne
  exact @Nat.pow_dvd_pow scale 1074 2 h

theorem log2_mul_two_pow {k bits : Nat} (hbits : 0 < bits) (h : k < 2 ^ bits) (e : Nat) :
    (k * 2 ^ e).log2 < bits + e := by
  by_cases hzero : k * 2 ^ e = 0
  · rw [hzero, Nat.log2_zero]
    omega
  · rw [Nat.log2_lt hzero, Nat.pow_add]
    exact Nat.mul_lt_mul_of_pos_right h (Nat.two_pow_pos e)

theorem log2_mul_unitsPerOne {k bits : Nat} (hbits : 0 < bits) (h : k < 2 ^ bits) :
    (k * unitsPerOne).log2 < bits + 1074 := by
  unfold unitsPerOne
  exact log2_mul_two_pow hbits h 1074

theorem mul_unitsPerOne (n : Int) :
    n * (unitsPerOne : Int) =
      if n < 0 then -((n.natAbs * unitsPerOne : Nat) : Int)
      else (n.natAbs * unitsPerOne : Nat) := by
  rw [Int.natCast_mul]
  split_ifs with hn
  · rw [← Int.neg_mul]
    congr 1
    omega
  · congr 1
    omega

theorem natAbs_sub_units (x : Binary64) (n : Int) :
    (x.signedUnits - n * unitsPerOne).natAbs =
      if x.negative = decide (n < 0) then Nat.dist (n.natAbs * unitsPerOne) x.units
      else n.natAbs * unitsPerOne + x.units := by
  rw [mul_unitsPerOne, signedUnits]
  unfold Nat.dist
  by_cases hn : n < 0
  · cases x.negative
    · simp only [hn, decide_true, if_true, Bool.false_eq_true, if_false]
      omega
    · simp only [hn, decide_true, if_true]
      omega
  · cases x.negative
    · simp only [hn, decide_false, if_true, Bool.false_eq_true, if_false]
      omega
    · simp only [hn, decide_false, if_true, Bool.true_eq_false, if_false]
      omega

section OfInt

variable {n : Int}

theorem isFinite_ofInt (h : n.natAbs < 2 ^ 63) : (ofInt n).isFinite := by
  apply decide_eq_true
  apply nearest_lt_infinity
  rw [Nat.div_one]
  have hlog := log2_mul_unitsPerOne (by decide) h
  omega

theorem units_ofInt_eq (n : Int) :
    (ofInt n).units = unitsOf (nearest (n.natAbs * unitsPerOne) 1).val := rfl

theorem val_ofInt_lt (h : n.natAbs < 2 ^ 63) :
    (nearest (n.natAbs * unitsPerOne) 1).val < infinityMagnitude :=
  of_decide_eq_true (isFinite_ofInt h)

/-- The double of an integer is correctly rounded, if it is finite. -/
theorem isNearest_ofInt_of_isFinite (h : (ofInt n).isFinite) : (ofInt n).IsNearest n := by
  have hval : (nearest (n.natAbs * unitsPerOne) 1).val < infinityMagnitude := of_decide_eq_true h
  have hx : ((ofInt n).signedUnits - n * unitsPerOne).natAbs =
      Nat.dist (n.natAbs * unitsPerOne) (ofInt n).units := by
    rw [natAbs_sub_units]
    exact if_pos rfl
  have hle : ∀ magnitude, Nat.dist (n.natAbs * unitsPerOne) (ofInt n).units ≤
      Nat.dist (n.natAbs * unitsPerOne) (unitsOf magnitude) := by
    intro magnitude
    have hdist := dist_nearest_le Nat.one_pos hval magnitude
    rwa [Nat.one_mul, Nat.one_mul, ← units_ofInt_eq] at hdist
  have heven : ∀ magnitude, unitsOf magnitude ≠ (ofInt n).units →
      Nat.dist (n.natAbs * unitsPerOne) (ofInt n).units =
        Nat.dist (n.natAbs * unitsPerOne) (unitsOf magnitude) →
      (ofInt n).magnitude.val % 2 = 0 := by
    intro magnitude hne he
    refine even_nearest Nat.one_pos hval hne ?_
    rwa [Nat.one_mul, Nat.one_mul, ← units_ofInt_eq]
  -- A double of the other sign is no nearer than zero is.
  have hzero : Nat.dist (n.natAbs * unitsPerOne) (unitsOf 0) = n.natAbs * unitsPerOne :=
    Nat.dist_zero_right _
  refine ⟨h, fun y _ => ?_, fun y _ hne he => ?_⟩
  · rw [hx, natAbs_sub_units y]
    split_ifs with hs
    · exact hle y.magnitude
    · have := hle 0
      omega
  · rw [hx, natAbs_sub_units y] at he
    by_cases hs : y.negative = decide (n < 0)
    · rw [if_pos hs] at he
      refine heven y.magnitude (fun hu => hne ?_) he
      simp only [signedUnits, hs, show (ofInt n).negative = decide (n < 0) from rfl]
      rw [show y.units = (ofInt n).units from hu]
    · rw [if_neg hs] at he
      have hle0 := hle 0
      have hy : y.units = 0 := by omega
      refine heven 0 (fun hu => hne ?_) (by omega)
      have hx0 : (ofInt n).units = 0 := hu.symm
      simp only [signedUnits, hy, hx0, Int.natCast_zero, Int.neg_zero, ite_self]

theorem isNearest_ofInt (h : n.natAbs < 2 ^ 63) : (ofInt n).IsNearest n :=
  isNearest_ofInt_of_isFinite (isFinite_ofInt h)

/-- Fifty-three bits hold an integer exactly. -/
theorem units_ofInt (h : n.natAbs < 2 ^ 53) : (ofInt n).units = n.natAbs * unitsPerOne := by
  apply unitsOf_nearest_of_dvd (val_ofInt_lt (Nat.lt_of_lt_of_le h (by decide)))
  have hscale : scaleOf (n.natAbs * unitsPerOne) 1 ≤ 1074 := by
    have hlog := log2_mul_unitsPerOne (by decide) h
    rw [scaleOf, Nat.div_one]
    omega
  exact Nat.dvd_mul_left_of_dvd (two_pow_dvd_unitsPerOne hscale) _

theorem signedUnits_ofInt (h : n.natAbs < 2 ^ 53) :
    (ofInt n).signedUnits = n * unitsPerOne := by
  rw [signedUnits, units_ofInt h, mul_unitsPerOne]
  simp only [ofInt, decide_eq_true_eq]

end OfInt

end RegisterMachine.Binary64
