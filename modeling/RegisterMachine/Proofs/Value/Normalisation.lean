import RegisterMachine.Proofs.Binary64.Number
import RegisterMachine.Proofs.Value.Canonical

/-!
# Normalisation

`Value.ofDouble` gives a double the form of a small integer where one stands for the same number,
the negative zero excepted (`ofDouble_eq_small_iff`), and `Value.toDouble` takes the double back,
bit by bit. The values that normalisation leaves alone are the canonical numbers.
-/

namespace RegisterMachine.Value

variable {x : Binary64} {i : Int32}

def IsNumeric : Value → Prop
  | small _ | number _ => True
  | undefined | null | hole | boolean _ => False

theorem smallOf?_eq_some_iff :
    smallOf? x = some i ↔ x.isFinite ∧ x.value = i.toInt ∧ x ≠ .zero true := by
  unfold smallOf?
  split
  · next hzero => simp [hzero]
  · next hzero =>
    rw [Option.map_eq_some_iff]
    constructor
    · rintro ⟨n, hn, rfl⟩
      obtain ⟨hint, hfits⟩ := Option.filter_eq_some_iff.mp hn
      obtain ⟨hfinite, hunits⟩ := Binary64.toInt?_eq_some_iff.mp hint
      obtain ⟨hlow, hhigh⟩ := of_decide_eq_true hfits
      have htoInt : (Int32.ofInt n).toInt = n := Int32.toInt_ofInt_of_le hlow hhigh
      rw [htoInt]
      exact ⟨hfinite, Binary64.value_eq_intCast_iff.mpr hunits, hzero⟩
    · rintro ⟨hfinite, hvalue, _⟩
      have hint := Binary64.toInt?_eq_some_iff.mpr
        ⟨hfinite, Binary64.value_eq_intCast_iff.mp hvalue⟩
      have hfits : FitsSmall i.toInt := ⟨i.le_toInt, i.toInt_lt⟩
      refine ⟨i.toInt, ?_, Int32.ofInt_toInt i⟩
      rw [hint, Option.filter_some, if_pos (decide_eq_true hfits)]

theorem ofDouble_eq_small_iff :
    ofDouble x = small i ↔ x.isFinite ∧ x.value = i.toInt ∧ x ≠ .zero true := by
  rw [← smallOf?_eq_some_iff, ofDouble]
  cases smallOf? x with
  | none => simp
  | some n => simp

/-- Normalisation keeps every bit. -/
theorem toDouble_ofDouble (x : Binary64) : (ofDouble x).toDouble = x := by
  unfold ofDouble
  cases h : smallOf? x with
  | none => rfl
  | some i =>
    obtain ⟨hfinite, hvalue, hzero⟩ := smallOf?_eq_some_iff.mp h
    exact Binary64.ofInt_of_value hfinite hvalue hzero

theorem isNumeric_ofDouble (x : Binary64) : (ofDouble x).IsNumeric := by
  unfold ofDouble
  cases smallOf? x with
  | none => trivial
  | some i => trivial

theorem ofDouble_toDouble {v : Value} (hnumeric : v.IsNumeric) (hcanonical : v.Canonical) :
    ofDouble v.toDouble = v := by
  cases v with
  | small i =>
    have hfits : FitsSmall i.toInt := ⟨i.le_toInt, i.toInt_lt⟩
    rw [toDouble, ofDouble_ofInt_of_fitsSmall hfits, Int32.ofInt_toInt]
  | number x =>
    have hnone : smallOf? x = none := hcanonical
    rw [toDouble, ofDouble, hnone]
  | undefined | null | hole | boolean b => exact hnumeric.elim

/-- A double is canonical unless a small integer stands for the same number. -/
theorem canonical_number_iff :
    (number x).Canonical ↔
      ∀ i : Int32, x.isFinite → x.value = i.toInt → x = .zero true := by
  change smallOf? x = none ↔ _
  rw [Option.eq_none_iff_forall_ne_some]
  refine forall_congr' fun i => ?_
  rw [ne_eq, smallOf?_eq_some_iff]
  tauto

/-- Normalisation and its inverse over all bit patterns: no bit is lost, so equal results have equal
bits; the small integers come from their own numbers, the negative zero excepted; and a value is
left alone if it is a number in canonical form, that is a small integer or a double that is not the
number of one. -/
theorem normalisation_lossless :
    (∀ bits : UInt64, (ofDouble (.ofBits bits)).toDouble.toBits = bits) ∧
    (∀ bits bits' : UInt64, ofDouble (.ofBits bits) = ofDouble (.ofBits bits') ↔ bits = bits') ∧
    (∀ x i, ofDouble x = small i ↔ x.isFinite ∧ x.value = i.toInt ∧ x ≠ .zero true) ∧
    (∀ v : Value, ofDouble v.toDouble = v ↔ v.IsNumeric ∧ v.Canonical) ∧
    (∀ i, (small i).Canonical) ∧
    ∀ x, (number x).Canonical ↔
      ∀ i : Int32, x.isFinite → x.value = i.toInt → x = .zero true := by
  refine ⟨?_, ?_, fun x i => ofDouble_eq_small_iff, ?_, fun i => trivial,
    fun x => canonical_number_iff⟩
  · intro bits
    rw [toDouble_ofDouble, Binary64.toBits_ofBits]
  · intro bits bits'
    constructor
    · intro h
      apply Binary64.ofBits_injective
      rw [← toDouble_ofDouble (.ofBits bits), h, toDouble_ofDouble]
    · rintro rfl
      rfl
  · intro v
    constructor
    · intro h
      rw [← h]
      exact ⟨isNumeric_ofDouble _, canonical_ofDouble _⟩
    · rintro ⟨hnumeric, hcanonical⟩
      exact ofDouble_toDouble hnumeric hcanonical

end RegisterMachine.Value
