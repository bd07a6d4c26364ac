import RegisterMachine.Binary64.Basic

/-!
# Arithmetic on doubles

Each operation forms the exact result in units and rounds it once, to nearest. Sums that vanish are
positive unless both terms are negative; products and quotients take the sign that the signs of
their operands give. An operation without a result answers the quiet NaN.
-/

namespace RegisterMachine.Binary64

protected def neg (x : Binary64) : Binary64 := { x with negative := !x.negative }

/-- The double nearest to a sum of units; `zeroNegative` is the sign if the sum vanishes. -/
def ofSum (sum : Int) (zeroNegative : Bool) : Binary64 :=
  ⟨if sum = 0 then zeroNegative else sum < 0, nearest sum.natAbs 1⟩

protected def add (x y : Binary64) : Binary64 :=
  if x.isNaN || y.isNaN then nan
  else if x.isInfinite then
    if y.isInfinite && x.negative != y.negative then nan else x
  else if y.isInfinite then y
  else ofSum (x.signedUnits + y.signedUnits) (x.negative && y.negative)

protected def sub (x y : Binary64) : Binary64 := x.add y.neg

protected def mul (x y : Binary64) : Binary64 :=
  let negative := x.negative != y.negative
  if x.isNaN || y.isNaN then nan
  else if x.isInfinite || y.isInfinite then
    if x.isZero || y.isZero then nan else infinity negative
  else ⟨negative, nearest (x.units * y.units) unitsPerOne⟩

protected def div (x y : Binary64) : Binary64 :=
  let negative := x.negative != y.negative
  if x.isNaN || y.isNaN then nan
  else if x.isInfinite then
    if y.isInfinite then nan else infinity negative
  else if y.isInfinite then zero negative
  else if y.isZero then
    if x.isZero then nan else infinity negative
  else ⟨negative, nearest (x.units * unitsPerOne) y.units⟩

instance : Neg Binary64 := ⟨Binary64.neg⟩
instance : Add Binary64 := ⟨Binary64.add⟩
instance : Sub Binary64 := ⟨Binary64.sub⟩
instance : Mul Binary64 := ⟨Binary64.mul⟩
instance : Div Binary64 := ⟨Binary64.div⟩

end RegisterMachine.Binary64
