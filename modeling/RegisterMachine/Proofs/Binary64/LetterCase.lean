import Mathlib.Data.List.TakeWhile
import RegisterMachine.Proofs.Binary64.Literal
import RegisterMachine.Proofs.Text.LetterCase

/-!
# Letter case in doubles

The letter of an exponent and the names of the infinities and of NaN are read in either case, and a
numeral has no other letters.
-/

namespace RegisterMachine

open Text

namespace Decimal

theorem takeWhile_lowered (word : List Char) :
    (lowered word).takeWhile Char.isDigit = word.takeWhile Char.isDigit := by
  have hdigits : Char.isDigit ∘ Char.toLower = Char.isDigit := funext isDigit_toLower
  rw [lowered, List.takeWhile_map, hdigits]
  exact lowered_of_isDigit fun _ hc => List.mem_takeWhile_imp hc

theorem dropWhile_lowered (word : List Char) :
    (lowered word).dropWhile Char.isDigit = lowered (word.dropWhile Char.isDigit) := by
  have hdigits : Char.isDigit ∘ Char.toLower = Char.isDigit := funext isDigit_toLower
  rw [lowered, List.dropWhile_map, hdigits, lowered]

theorem exponentSize?_lowered (digits : List Char) :
    exponentSize? (lowered digits) = exponentSize? digits :=
  Numeral.read_lowered
    (fun _ h => by rw [exponentSize?, h, Bool.not_false, Bool.or_true, if_pos rfl]) digits

theorem exponent?_lowered (word : List Char) : exponent? (lowered word) = exponent? word := by
  cases word with
  | nil => rfl
  | cons c rest =>
    have hletter : (c.toLower = 'e' ∨ c.toLower = 'E') ↔ (c = 'e' ∨ c = 'E') :=
      iff_toLower (p := fun c => c = 'e' ∨ c = 'E') (by decide) c
    rw [lowered_cons, exponent?_cons, exponent?_cons, Numeral.splitSign_lowered,
      exponentSize?_lowered]
    simp only [hletter]

theorem fractionAndRest_lowered (word : List Char) :
    fractionAndRest (lowered word) = ((fractionAndRest word).1, lowered (fractionAndRest word).2) := by
  cases word with
  | nil => rfl
  | cons c rest =>
    by_cases hc : c = '.'
    · rw [hc]
      exact Prod.ext (takeWhile_lowered rest) (dropWhile_lowered rest)
    · have hlower : c.toLower ≠ '.' := mt (iff_toLower (p := (· = '.')) (by decide) c).mp hc
      have hcut : ∀ {c : Char} (rest : List Char), c ≠ '.' →
          fractionAndRest (c :: rest) = ([], c :: rest) :=
        fun rest h => fractionAndRest.eq_2 _ fun _ heq => h (List.cons.inj heq).1
      rw [lowered_cons, hcut _ hlower, hcut _ hc, ← lowered_cons]

theorem ofText?_lowered (word : List Char) : ofText? (lowered word) = ofText? word := by
  rw [ofText?, ofText?, takeWhile_lowered, dropWhile_lowered, fractionAndRest_lowered]
  dsimp only
  rw [exponent?_lowered]

end Decimal

namespace Binary64

theorem ofText?_lowered (word : List Char) : ofText? (lowered word) = ofText? word := by
  rw [ofText?_eq, ofText?_eq, Numeral.splitSign_lowered, lowered_lowered, Decimal.ofText?_lowered]

end Binary64

end RegisterMachine
