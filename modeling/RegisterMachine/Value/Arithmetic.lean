import RegisterMachine.Value.Basic

/-!
# Arithmetic on values

Two small integers are added, subtracted and multiplied as integers as long as the result is one.
All else goes through doubles. No operation fails.
-/

namespace RegisterMachine.Value

def ofIntOr (n : Int) (x : Binary64) : Value :=
  if FitsSmall n then small (.ofInt n) else number x

protected def add : Value → Value → Value
  | small a, small b => ofIntOr (a.toInt + b.toInt) (.ofInt a.toInt + .ofInt b.toInt)
  | a, b => ofDouble (a.toDouble + b.toDouble)

protected def sub : Value → Value → Value
  | small a, small b => ofIntOr (a.toInt - b.toInt) (.ofInt a.toInt - .ofInt b.toInt)
  | a, b => ofDouble (a.toDouble - b.toDouble)

/-- Zero times a negative number is the negative zero, which no small integer holds. -/
protected def mul : Value → Value → Value
  | small a, small b =>
    let product := a.toInt * b.toInt
    if product = 0 ∧ (a.toInt < 0 ∨ b.toInt < 0) then number (.zero true)
    else ofIntOr product (.ofInt a.toInt * .ofInt b.toInt)
  | a, b => ofDouble (a.toDouble * b.toDouble)

protected def div (a b : Value) : Value := ofDouble (a.toDouble / b.toDouble)

end RegisterMachine.Value
