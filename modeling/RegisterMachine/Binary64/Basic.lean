/-!
# Binary floating point in 64 bits

A double is a sign and a magnitude below `2 ^ 63`. The magnitude is the bit pattern without its
sign bit, eleven bits of exponent above fifty-two bits of fraction; as a natural number it grows
with the absolute value it stands for.

Every finite double is a whole number of units of `2 ^ (-1074)`, the distance between the smallest
doubles. Exact results are therefore quotients of natural numbers of units, and one function,
`nearest`, rounds such a quotient to a magnitude.
-/

-- A power of numbers is the core library's power, also where another library brings its own.
attribute [default_instance high, instance (high)] instPowNat

namespace RegisterMachine

/-- A double. Equality is equality of bit patterns: zeros of opposite sign differ, and a NaN equals
itself. -/
structure Binary64 where
  negative : Bool
  magnitude : Fin (2 ^ 63)
  deriving DecidableEq

namespace Binary64

/-- The magnitude of the infinities; those above it are NaNs. -/
def infinityMagnitude : Nat := 2047 * 2 ^ 52

theorem infinityMagnitude_lt : infinityMagnitude < 2 ^ 63 := by decide

def unitsPerOne : Nat := 2 ^ 1074

def ofBits (bits : UInt64) : Binary64 where
  negative := 2 ^ 63 ≤ bits.toNat
  magnitude := ⟨bits.toNat % 2 ^ 63, Nat.mod_lt _ (by decide)⟩

def toBits (x : Binary64) : UInt64 :=
  .ofNat ((if x.negative then 2 ^ 63 else 0) + x.magnitude)

def zero (negative : Bool) : Binary64 := ⟨negative, ⟨0, by decide⟩⟩

def infinity (negative : Bool) : Binary64 := ⟨negative, ⟨infinityMagnitude, infinityMagnitude_lt⟩⟩

def nan : Binary64 := ⟨false, ⟨infinityMagnitude + 2 ^ 51, by decide⟩⟩

def isNaN (x : Binary64) : Bool := infinityMagnitude < x.magnitude

def isInfinite (x : Binary64) : Bool := x.magnitude.val == infinityMagnitude

def isFinite (x : Binary64) : Bool := x.magnitude < infinityMagnitude

def isZero (x : Binary64) : Bool := x.magnitude.val == 0

/-- A finite magnitude in units. Below `2 ^ 52` the doubles are one unit apart; each further step of
the exponent doubles their distance. -/
def unitsOf (magnitude : Nat) : Nat :=
  if magnitude < 2 ^ 52 then magnitude
  else (2 ^ 52 + magnitude % 2 ^ 52) * 2 ^ (magnitude / 2 ^ 52 - 1)

def units (x : Binary64) : Nat := unitsOf x.magnitude

def signedUnits (x : Binary64) : Int := if x.negative then -x.units else x.units

/-- The quotient rounded to a whole number; of two that are equally near, the even one. -/
def roundedQuotient (numerator denominator : Nat) : Nat :=
  let floor := numerator / denominator
  let rest := numerator % denominator
  if 2 * rest < denominator then floor
  else if 2 * rest = denominator then floor + floor % 2
  else floor + 1

/-- The steps of the exponent above the smallest doubles that a quotient of units needs to keep
fifty-three bits. -/
def scaleOf (numerator denominator : Nat) : Nat := (numerator / denominator).log2 - 52

/-- The magnitude nearest to a quotient of units. A rounded fraction that overflows its fifty-two
bits carries into the exponent, and past the largest double lies the infinity. -/
def nearest (numerator denominator : Nat) : Fin (2 ^ 63) :=
  let scale := scaleOf numerator denominator
  let rounded := scale * 2 ^ 52 + roundedQuotient numerator (denominator * 2 ^ scale)
  ⟨min rounded infinityMagnitude, Nat.lt_of_le_of_lt (Nat.min_le_right ..) infinityMagnitude_lt⟩

def ofInt (n : Int) : Binary64 := ⟨n < 0, nearest (n.natAbs * unitsPerOne) 1⟩

def toInt? (x : Binary64) : Option Int :=
  if x.isFinite && x.units % unitsPerOne == 0 then
    let n : Int := ↑(x.units / unitsPerOne)
    some (if x.negative then -n else n)
  else none

end Binary64

end RegisterMachine
