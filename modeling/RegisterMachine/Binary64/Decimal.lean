import RegisterMachine.Binary64.Basic
import RegisterMachine.Text.Numeral
import RegisterMachine.Text.Words

/-!
# Decimals and doubles

A decimal is a natural number of units of a power of ten. A numeral with a point or an exponent
denotes a decimal, and a decimal denotes the double nearest to it.

In the other direction a double is written as the decimal on the coarsest grid of powers of ten
that still reads back as that double, which has the fewest digits.
-/

namespace RegisterMachine

/-- The number `digits * 10 ^ exponent`. -/
structure Decimal where
  digits : Nat
  exponent : Int
  deriving DecidableEq

namespace Decimal

def digitCount (n : Nat) : Nat := (Nat.toDigits 10 n).length

/-- The magnitude nearest to a decimal. Decimals far outside the range of the doubles are settled
by their exponents alone, without forming the power of ten. -/
def magnitude (d : Decimal) : Fin (2 ^ 63) :=
  if d.exponent > 1100 then
    if d.digits = 0 then (Binary64.zero false).magnitude else (Binary64.infinity false).magnitude
  else if d.exponent + digitCount d.digits < -1100 then (Binary64.zero false).magnitude
  else if 0 ≤ d.exponent then
    Binary64.nearest (d.digits * 10 ^ d.exponent.toNat * Binary64.unitsPerOne) 1
  else Binary64.nearest (d.digits * Binary64.unitsPerOne) (10 ^ (-d.exponent).toNat)

/-- The value of the digits of an exponent. Once it has reached 65536 the digits that follow do not
count: so large an exponent settles the double, unless tens of thousands of digits precede it. -/
def exponentValue (digits : List Char) : Nat :=
  digits.foldl (fun n c => if n < 65536 then 10 * n + (c.toNat - '0'.toNat) else n) 0

def exponentSize? (digits : List Char) : Option Nat :=
  if digits.isEmpty || !digits.all Char.isDigit then none else some (exponentValue digits)

def exponent? : List Char → Option Int
  | [] => some 0
  | c :: rest =>
    if c = 'e' ∨ c = 'E' then
      match rest with
      | '-' :: digits => (exponentSize? digits).map fun n => -Int.ofNat n
      | _ => (exponentSize? (Numeral.afterPlus rest)).map Int.ofNat
    else none

def fractionAndRest : List Char → List Char × List Char
  | '.' :: rest => (rest.takeWhile Char.isDigit, rest.dropWhile Char.isDigit)
  | rest => ([], rest)

/-- The decimal that a numeral without a sign denotes. There is at least one digit, on either side
of the point. -/
def ofText? (word : List Char) : Option Decimal :=
  let whole := word.takeWhile Char.isDigit
  let (fraction, rest) := fractionAndRest (word.dropWhile Char.isDigit)
  if whole.isEmpty && fraction.isEmpty then none
  else (exponent? rest).map fun exponent =>
    ⟨Nat.ofDigitChars 10 (whole ++ fraction) 0, exponent - fraction.length⟩

/-- The neighbours of a number of units on the grid of the multiples of `10 ^ exponent`, the nearer
one first; of two that are equally near, the greater one first. -/
def neighbours (units : Nat) (exponent : Int) : List Decimal :=
  let numerator := units * 10 ^ (-exponent).toNat
  let denominator := Binary64.unitsPerOne * 10 ^ exponent.toNat
  let below : Decimal := ⟨numerator / denominator, exponent⟩
  let above : Decimal := ⟨numerator / denominator + 1, exponent⟩
  if 2 * (numerator % denominator) < denominator then [below, above] else [above, below]

def orderOf (units : Nat) : Int :=
  digitCount (units * 10 ^ 400 / Binary64.unitsPerOne) - 400

def exact (units : Nat) : Decimal := ⟨units * 5 ^ 1074, -1074⟩

end Decimal

namespace Binary64

def ofText? (word : List Char) : Option Binary64 :=
  let (negative, body) := match word with
    | '-' :: rest => (true, rest)
    | word => (false, Numeral.afterPlus word)
  if Text.lowered body ∈ ["inf".toList, "infinity".toList] then some (infinity negative)
  else if Text.lowered body = "nan".toList then some { nan with negative }
  else (Decimal.ofText? body).map fun d => ⟨negative, d.magnitude⟩

/-- The shortest decimal that reads back as the absolute value of a finite double. Seventeen digits
are enough for every double. -/
def shortest (x : Binary64) : Decimal :=
  if x.isZero then ⟨0, 0⟩
  else
    let order := Decimal.orderOf x.units
    let readsBack (d : Decimal) : Bool := d.magnitude = x.magnitude
    let found := (List.range 18).findSome? fun (n : Nat) =>
      (Decimal.neighbours x.units (order - n)).find? readsBack
    found.getD (Decimal.exact x.units)

end Binary64

namespace Decimal

def order (d : Decimal) : Int := d.exponent + digitCount d.digits

def positional (d : Decimal) : List Char :=
  let digits := Nat.toDigits 10 d.digits
  let places := (-d.exponent).toNat
  if 0 ≤ d.exponent then digits ++ List.replicate d.exponent.toNat '0'
  else if places < digits.length then
    digits.take (digits.length - places) ++ '.' :: digits.drop (digits.length - places)
  else '0' :: '.' :: List.replicate (places - digits.length) '0' ++ digits

def scientific (d : Decimal) : List Char :=
  let mantissa := match Nat.toDigits 10 d.digits with
    | first :: second :: rest => first :: '.' :: second :: rest
    | digits => digits
  mantissa ++ 'e' :: (toString (d.order - 1)).toList

end Decimal

end RegisterMachine
