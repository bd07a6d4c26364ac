import RegisterMachine.Proofs.Value.Arithmetic

/-!
# Canonical values

A value is canonical unless it is a double where a small integer could stand. What a double stands
for is told by its units, and arithmetic comes to canonical values whatever it is given.
-/

namespace RegisterMachine

namespace Binary64

theorem isFinite_of_toInt? {x : Binary64} {n : Int} (h : x.toInt? = some n) : x.isFinite := by
  unfold toInt? at h
  split at h
  · next hcond => exact (Bool.and_eq_true_iff.mp hcond).1
  · cases h

/-- A finite double is an integer if its units make up whole ones. -/
theorem toInt?_eq_some_iff {x : Binary64} {n : Int} :
    x.toInt? = some n ↔ x.isFinite ∧ x.signedUnits = n * unitsPerOne := by
  constructor
  · exact fun h => ⟨isFinite_of_toInt? h, signedUnits_of_toInt? h⟩
  · rintro ⟨hfinite, hunits⟩
    have habs : x.units = n.natAbs * unitsPerOne := by
      have hnatAbs := congrArg Int.natAbs hunits
      rw [Int.natAbs_mul, Int.natAbs_natCast] at hnatAbs
      rw [← hnatAbs, signedUnits]
      split <;> simp
    have hpos : (0 : Int) < unitsPerOne := Int.natCast_pos.mpr unitsPerOne_pos
    have hsigned : (if x.negative then -(n.natAbs : Int) else n.natAbs) = n := by
      rw [signedUnits, habs, Int.natCast_mul, ← Int.neg_mul, ← ite_mul] at hunits
      exact Int.eq_of_mul_eq_mul_right (Int.ne_of_gt hpos) hunits
    rw [toInt?, hfinite, habs, Nat.mul_mod_left, Nat.mul_div_cancel _ unitsPerOne_pos]
    exact congrArg some hsigned

end Binary64

namespace Value

/-- A canonical value is a double of an integer in the range of the small ones only if it is the
negative zero. -/
theorem canonical_iff (v : Value) :
    v.Canonical ↔
      ∀ x n, v = number x → x.isFinite → x.signedUnits = n * Binary64.unitsPerOne → FitsSmall n →
        x = .zero true := by
  cases v with
  | number x =>
    change smallOf? x = none ↔ _
    unfold smallOf?
    constructor
    · rintro hnone _ n ⟨⟩ hfinite hunits hfits
      by_contra hne
      rw [if_neg hne, Binary64.toInt?_eq_some_iff.mpr ⟨hfinite, hunits⟩, Option.filter_some,
        if_pos (decide_eq_true hfits)] at hnone
      cases hnone
    · intro h
      split
      · rfl
      · next hne =>
        rw [Option.map_eq_none_iff, Option.filter_eq_none_iff]
        intro n hn hfits
        obtain ⟨hfinite, hunits⟩ := Binary64.toInt?_eq_some_iff.mp hn
        exact hne (h x n rfl hfinite hunits (of_decide_eq_true hfits))
  | undefined | null | hole | boolean b | small n => exact iff_of_true trivial nofun

theorem canonical_ofDouble (x : Binary64) : (ofDouble x).Canonical := by
  unfold ofDouble
  cases h : smallOf? x with
  | some n => exact trivial
  | none => exact h

variable (lhs rhs : Value)

theorem canonical_add : (lhs.add rhs).Canonical :=
  add_eq_ofDouble lhs rhs ▸ canonical_ofDouble _

theorem canonical_sub : (lhs.sub rhs).Canonical :=
  sub_eq_ofDouble lhs rhs ▸ canonical_ofDouble _

theorem canonical_mul : (lhs.mul rhs).Canonical :=
  mul_eq_ofDouble lhs rhs ▸ canonical_ofDouble _

theorem canonical_div : (lhs.div rhs).Canonical := canonical_ofDouble _

end Value

end RegisterMachine
