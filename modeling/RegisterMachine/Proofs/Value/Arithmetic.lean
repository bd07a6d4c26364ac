import RegisterMachine.Proofs.Binary64.Nearest
import RegisterMachine.Value.Arithmetic

/-!
# Small integers and their doubles

The double of a small integer is exact, so sums, differences and products of such doubles are the
doubles of the integer results, rounded once. `Value.ofDouble` takes them back to small integers as
far as these reach. Whether arithmetic went through integers or doubles cannot be told from its
results (`integer_path_unobservable`).
-/

namespace RegisterMachine

namespace Binary64

variable {x y : Binary64} {a b : Int}

theorem isNaN_of_isFinite (h : x.isFinite) : x.isNaN = false :=
  decide_eq_false (Nat.lt_asymm (of_decide_eq_true h))

theorem isInfinite_of_isFinite (h : x.isFinite) : x.isInfinite = false :=
  beq_eq_false_iff_ne.mpr (Nat.ne_of_lt (of_decide_eq_true h))

theorem add_of_isFinite (hx : x.isFinite) (hy : y.isFinite) :
    x + y = ofSum (x.signedUnits + y.signedUnits) (x.negative && y.negative) := by
  change Binary64.add x y = _
  simp only [Binary64.add, isNaN_of_isFinite hx, isNaN_of_isFinite hy, isInfinite_of_isFinite hx,
    isInfinite_of_isFinite hy, Bool.or_self, Bool.false_eq_true, if_false]

theorem mul_of_isFinite (hx : x.isFinite) (hy : y.isFinite) :
    x * y = ⟨x.negative != y.negative, nearest (x.units * y.units) unitsPerOne⟩ := by
  change Binary64.mul x y = _
  simp only [Binary64.mul, isNaN_of_isFinite hx, isNaN_of_isFinite hy, isInfinite_of_isFinite hx,
    isInfinite_of_isFinite hy, Bool.or_self, Bool.false_eq_true, if_false]

theorem signedUnits_neg (x : Binary64) : (-x).signedUnits = -x.signedUnits := by
  change (if !x.negative then -(x.units : Int) else x.units) = -x.signedUnits
  rw [signedUnits]
  cases x.negative <;> simp

/-- A whole sum is the double of an integer; a sum that vanishes must not be given the minus. -/
theorem ofSum_mul_unitsPerOne {n : Int} {zeroNegative : Bool} (h : n = 0 → zeroNegative = false) :
    ofSum (n * unitsPerOne) zeroNegative = ofInt n := by
  have hpos : (0 : Int) < unitsPerOne := Int.natCast_pos.mpr unitsPerOne_pos
  have hzero : n * (unitsPerOne : Int) = 0 ↔ n = 0 := by
    rw [Int.mul_eq_zero, or_iff_left (Int.ne_of_gt hpos)]
  have hneg : n * (unitsPerOne : Int) < 0 ↔ n < 0 := by
    rw [← Int.not_le, Int.mul_nonneg_iff_of_pos_right hpos, Int.not_le]
  have hnatAbs : (n * (unitsPerOne : Int)).natAbs = n.natAbs * unitsPerOne := by
    rw [Int.natAbs_mul, Int.natAbs_natCast]
  rw [ofSum, ofInt, hnatAbs]
  congr 1
  by_cases hn : n = 0
  · rw [if_pos (hzero.mpr hn), h hn, hn]
    rfl
  · rw [if_neg (mt hzero.mp hn), decide_eq_decide.mpr hneg]

theorem lt_of_lt_bits (h : a.natAbs < 2 ^ 53) : a.natAbs < 2 ^ 63 :=
  Nat.lt_of_lt_of_le h (by decide)

theorem ofInt_add (ha : a.natAbs < 2 ^ 53) (hb : b.natAbs < 2 ^ 53) :
    ofInt a + ofInt b = ofInt (a + b) := by
  rw [add_of_isFinite (isFinite_ofInt (lt_of_lt_bits ha)) (isFinite_ofInt (lt_of_lt_bits hb)),
    signedUnits_ofInt ha, signedUnits_ofInt hb, ← Int.add_mul]
  apply ofSum_mul_unitsPerOne
  intro hsum
  simp only [ofInt, Bool.and_eq_false_iff, decide_eq_false_iff_not]
  omega

theorem ofInt_sub (ha : a.natAbs < 2 ^ 53) (hb : b.natAbs < 2 ^ 53) :
    ofInt a - ofInt b = ofInt (a - b) := by
  have hneg : (-ofInt b).isFinite := isFinite_ofInt (lt_of_lt_bits hb)
  change ofInt a + -ofInt b = _
  rw [add_of_isFinite (isFinite_ofInt (lt_of_lt_bits ha)) hneg, signedUnits_neg,
    signedUnits_ofInt ha, signedUnits_ofInt hb, ← Int.sub_eq_add_neg, ← Int.sub_mul]
  apply ofSum_mul_unitsPerOne
  intro hdifference
  change (decide (a < 0) && !decide (b < 0)) = false
  rw [show a = b by omega, Bool.and_not_self]

/-- The product of two doubles of integers has the sign that the signs of the factors give, also if
it vanishes. -/
theorem ofInt_mul (ha : a.natAbs < 2 ^ 53) (hb : b.natAbs < 2 ^ 53) :
    ofInt a * ofInt b =
      { ofInt (a * b) with negative := decide (a < 0) != decide (b < 0) } := by
  have hproduct : ∀ u, a.natAbs * u * (b.natAbs * u) = u * (a.natAbs * b.natAbs * u) := by
    intro u
    rw [Nat.mul_mul_mul_comm, ← Nat.mul_assoc, Nat.mul_comm u]
  have hscale := nearest_mul unitsPerOne_pos (a.natAbs * b.natAbs * unitsPerOne) 1
  rw [Nat.mul_one, ← Int.natAbs_mul] at hscale
  rw [mul_of_isFinite (isFinite_ofInt (lt_of_lt_bits ha)) (isFinite_ofInt (lt_of_lt_bits hb)),
    units_ofInt ha, units_ofInt hb, hproduct, ← Int.natAbs_mul, hscale]
  rfl

theorem ofInt_zero : ofInt 0 = zero false := by
  rw [ofInt, Int.natAbs_zero, Nat.zero_mul]
  rfl

theorem negative_of_product (h : a * b ≠ 0) :
    (decide (a < 0) != decide (b < 0)) = decide (a * b < 0) := by
  obtain ⟨ha, hb⟩ := Int.mul_ne_zero_iff.mp h
  rcases Int.lt_or_gt_of_ne ha with hna | hpa <;> rcases Int.lt_or_gt_of_ne hb with hnb | hpb
  · simp [hna, hnb, Int.not_lt.mpr (Int.le_of_lt (Int.mul_pos_of_neg_of_neg hna hnb))]
  · simp [hna, Int.not_lt.mpr (Int.le_of_lt hpb), Int.mul_neg_of_neg_of_pos hna hpb]
  · simp [hnb, Int.not_lt.mpr (Int.le_of_lt hpa), Int.mul_neg_of_pos_of_neg hpa hnb]
  · simp [Int.not_lt.mpr (Int.le_of_lt hpa), Int.not_lt.mpr (Int.le_of_lt hpb),
      Int.not_lt.mpr (Int.le_of_lt (Int.mul_pos hpa hpb))]

theorem signedUnits_of_toInt? {n : Int} (h : x.toInt? = some n) :
    x.signedUnits = n * unitsPerOne := by
  unfold toInt? at h
  split at h
  · next hcond =>
    have hmod : x.units % unitsPerOne = 0 := by
      simpa using (Bool.and_eq_true_iff.mp hcond).2
    have hunits : (x.units : Int) = ↑(x.units / unitsPerOne) * (unitsPerOne : Int) := by
      rw [← Int.natCast_mul, Nat.div_mul_cancel (Nat.dvd_of_mod_eq_zero hmod)]
    have hn := Option.some.inj h
    rw [signedUnits, ← hn, hunits]
    split_ifs
    · exact (Int.neg_mul ..).symm
    · rfl
  · cases h

theorem toInt?_ofInt (h : a.natAbs < 2 ^ 53) : (ofInt a).toInt? = some a := by
  have hfinite := isFinite_ofInt (lt_of_lt_bits h)
  rw [toInt?, units_ofInt h, hfinite, Nat.mul_mod_left, Nat.mul_div_cancel _ unitsPerOne_pos]
  simp only [beq_self_eq_true, Bool.and_self, if_true, ofInt, decide_eq_true_eq, Option.some.injEq]
  split_ifs <;> omega

end Binary64

namespace Value

open Binary64

variable {n : Int}

theorem natAbs_lt_of_fitsSmall (h : FitsSmall n) : n.natAbs < 2 ^ 53 := by
  obtain ⟨hlow, hhigh⟩ := h
  omega

theorem ofDouble_ofInt_of_fitsSmall (h : FitsSmall n) : ofDouble (.ofInt n) = small (.ofInt n) := by
  have hbits := natAbs_lt_of_fitsSmall h
  have hzero : Binary64.ofInt n ≠ .zero true := by
    intro he
    have hneg : decide (n < 0) = true := congrArg Binary64.negative he
    have hunits : (Binary64.ofInt n).units = 0 := by rw [he]; rfl
    rw [units_ofInt hbits, Nat.mul_eq_zero, or_iff_left (Nat.ne_of_gt unitsPerOne_pos)] at hunits
    have := of_decide_eq_true hneg
    omega
  have hsmall : smallOf? (.ofInt n) = some (.ofInt n) := by
    rw [smallOf?, if_neg hzero, toInt?_ofInt hbits, Option.filter_some, if_pos (decide_eq_true h)]
    rfl
  rw [ofDouble, hsmall]

/-- Rounding does not bring an integer into the range of the small ones: both ends of the range have
exact neighbours outside. -/
theorem not_fitsSmall_of_isNearest {x : Binary64} {k : Int} (hx : x.IsNearest n)
    (hn : ¬FitsSmall n) (hk : x.toInt? = some k) : ¬FitsSmall k := by
  intro hfits
  -- Such a neighbour, exact as it is, lies between the integer and the range.
  obtain ⟨c, hc, hside⟩ : ∃ c : Int, c.natAbs < 2 ^ 53 ∧ (c - n).natAbs < (k - n).natAbs := by
    unfold FitsSmall at hn hfits
    by_cases hhigh : (2 : Int) ^ 31 ≤ n
    · exact ⟨2 ^ 31, by decide, by omega⟩
    · exact ⟨-2 ^ 31 - 1, by decide, by omega⟩
  have hle := hx.le (.ofInt c) (isFinite_ofInt (lt_of_lt_bits hc))
  rw [signedUnits_of_toInt? hk, signedUnits_ofInt hc, ← Int.sub_mul, ← Int.sub_mul, Int.natAbs_mul,
    Int.natAbs_mul, Int.natAbs_natCast] at hle
  exact absurd (Nat.le_of_mul_le_mul_right hle unitsPerOne_pos) (Nat.not_le.mpr hside)

theorem ofDouble_ofInt (h : n.natAbs < 2 ^ 63) : ofDouble (.ofInt n) = ofIntOr n (.ofInt n) := by
  unfold ofIntOr
  by_cases hfits : FitsSmall n
  · rw [if_pos hfits, ofDouble_ofInt_of_fitsSmall hfits]
  · have hsmall : smallOf? (.ofInt n) = none := by
      unfold smallOf?
      split_ifs
      · rfl
      · cases hk : (Binary64.ofInt n).toInt? with
        | none => rfl
        | some k =>
          have hout := not_fitsSmall_of_isNearest (isNearest_ofInt h) hfits hk
          rw [Option.filter_some, if_neg (by simpa using hout)]
          rfl
    rw [if_neg hfits, ofDouble, hsmall]

/-- The value of an integer result: the small integer, or the double nearest to it. -/
def Holds (v : Value) (n : Int) : Prop :=
  if FitsSmall n then v = small (.ofInt n) else ∃ x, v = number x ∧ x.IsNearest n

theorem holds_ofIntOr (h : n.natAbs < 2 ^ 63) : (ofIntOr n (.ofInt n)).Holds n := by
  unfold Holds ofIntOr
  split_ifs
  · rfl
  · exact ⟨_, rfl, isNearest_ofInt h⟩

section Small

variable (a b : Int32)

theorem natAbs_toInt_le : a.toInt.natAbs ≤ 2 ^ 31 := by
  have hlow := a.le_toInt
  have hhigh := a.toInt_lt
  omega

theorem natAbs_toInt_lt : a.toInt.natAbs < 2 ^ 53 :=
  Nat.lt_of_le_of_lt (natAbs_toInt_le a) (by decide)

theorem natAbs_mul_toInt_lt : (a.toInt * b.toInt).natAbs < 2 ^ 63 := by
  rw [Int.natAbs_mul]
  calc a.toInt.natAbs * b.toInt.natAbs ≤ 2 ^ 31 * 2 ^ 31 :=
        Nat.mul_le_mul (natAbs_toInt_le a) (natAbs_toInt_le b)
    _ < 2 ^ 63 := by decide

theorem add_small :
    (small a).add (small b) = ofIntOr (a.toInt + b.toInt) (.ofInt (a.toInt + b.toInt)) := by
  rw [Value.add, ofInt_add (natAbs_toInt_lt a) (natAbs_toInt_lt b)]

theorem sub_small :
    (small a).sub (small b) = ofIntOr (a.toInt - b.toInt) (.ofInt (a.toInt - b.toInt)) := by
  rw [Value.sub, ofInt_sub (natAbs_toInt_lt a) (natAbs_toInt_lt b)]

/-- A product that vanishes has the minus of its negative factor, if there is one. -/
theorem ofInt_mul_small :
    Binary64.ofInt a.toInt * .ofInt b.toInt =
      if a.toInt * b.toInt = 0 ∧ (a.toInt < 0 ∨ b.toInt < 0) then .zero true
      else .ofInt (a.toInt * b.toInt) := by
  rw [ofInt_mul (natAbs_toInt_lt a) (natAbs_toInt_lt b)]
  by_cases hproduct : a.toInt * b.toInt = 0
  · rw [hproduct, ofInt_zero]
    rcases Int.mul_eq_zero.mp hproduct with ha | hb
    · by_cases hb : b.toInt < 0 <;> simp [ha, hb, Binary64.zero]
    · by_cases ha : a.toInt < 0 <;> simp [ha, hb, Binary64.zero]
  · rw [if_neg fun h => hproduct h.1, negative_of_product hproduct]
    rfl

theorem mul_small :
    (small a).mul (small b) =
      if a.toInt * b.toInt = 0 ∧ (a.toInt < 0 ∨ b.toInt < 0) then number (.zero true)
      else ofIntOr (a.toInt * b.toInt) (.ofInt (a.toInt * b.toInt)) := by
  rw [Value.mul, ofInt_mul_small]
  split_ifs <;> rfl

end Small

theorem add_eq_ofDouble (lhs rhs : Value) :
    lhs.add rhs = ofDouble (lhs.toDouble + rhs.toDouble) := by
  cases lhs with
  | small a =>
    cases rhs with
    | small b =>
      have hbits := natAbs_toInt_le a
      have hbits' := natAbs_toInt_le b
      rw [add_small, toDouble, toDouble, ofInt_add (natAbs_toInt_lt a) (natAbs_toInt_lt b),
        ofDouble_ofInt (by omega)]
    | _ => rfl
  | _ => rfl

theorem sub_eq_ofDouble (lhs rhs : Value) :
    lhs.sub rhs = ofDouble (lhs.toDouble - rhs.toDouble) := by
  cases lhs with
  | small a =>
    cases rhs with
    | small b =>
      have hbits := natAbs_toInt_le a
      have hbits' := natAbs_toInt_le b
      rw [sub_small, toDouble, toDouble, ofInt_sub (natAbs_toInt_lt a) (natAbs_toInt_lt b),
        ofDouble_ofInt (by omega)]
    | _ => rfl
  | _ => rfl

theorem mul_eq_ofDouble (lhs rhs : Value) :
    lhs.mul rhs = ofDouble (lhs.toDouble * rhs.toDouble) := by
  cases lhs with
  | small a =>
    cases rhs with
    | small b =>
      rw [mul_small, toDouble, toDouble, ofInt_mul_small]
      split_ifs
      · rfl
      · rw [ofDouble_ofInt (natAbs_mul_toInt_lt a b)]
    | _ => rfl
  | _ => rfl

/-- Sums, differences and products of any values are those of their doubles in canonical form. For
two small integers they are the exact integers: a small one where it fits, else the nearest double;
only zero times a negative integer is the negative zero instead. -/
theorem integer_path_unobservable :
    (∀ lhs rhs : Value,
      lhs.add rhs = ofDouble (lhs.toDouble + rhs.toDouble) ∧
      lhs.sub rhs = ofDouble (lhs.toDouble - rhs.toDouble) ∧
      lhs.mul rhs = ofDouble (lhs.toDouble * rhs.toDouble)) ∧
    ∀ a b : Int32,
      ((small a).add (small b)).Holds (a.toInt + b.toInt) ∧
      ((small a).sub (small b)).Holds (a.toInt - b.toInt) ∧
      if a.toInt * b.toInt = 0 ∧ (a.toInt < 0 ∨ b.toInt < 0) then
        (small a).mul (small b) = number (.zero true)
      else ((small a).mul (small b)).Holds (a.toInt * b.toInt) := by
  refine ⟨fun lhs rhs => ⟨add_eq_ofDouble lhs rhs, sub_eq_ofDouble lhs rhs,
    mul_eq_ofDouble lhs rhs⟩, fun a b => ?_⟩
  have ha := natAbs_toInt_le a
  have hb := natAbs_toInt_le b
  refine ⟨?_, ?_, ?_⟩
  · rw [add_small]
    exact holds_ofIntOr (by omega)
  · rw [sub_small]
    exact holds_ofIntOr (by omega)
  · rw [mul_small]
    split_ifs
    · rfl
    · exact holds_ofIntOr (natAbs_mul_toInt_lt a b)

end Value

end RegisterMachine
