import RegisterMachine.Binary64.Arithmetic
import RegisterMachine.Binary64.Decimal

/-!
# Values

What the accumulator, the registers and the constant pool hold. An integral number in the range of
32 bits has two forms, a small integer and a double; `Value.ofDouble` chooses the small integer,
except for the negative zero, which only a double can hold.
-/

namespace RegisterMachine

/-- A value. Equality is equality of representations: a small integer differs from every double, and
doubles are equal when their bits are. -/
inductive Value where
  | undefined
  | null
  /-- Marks a binding that has not been initialised. -/
  | hole
  | boolean (b : Bool)
  | small (n : Int32)
  | number (x : Binary64)
  deriving DecidableEq

namespace Value

instance : Inhabited Value := ⟨undefined⟩

def FitsSmall (n : Int) : Prop := -2 ^ 31 ≤ n ∧ n < 2 ^ 31

instance (n : Int) : Decidable (FitsSmall n) := inferInstanceAs (Decidable (_ ∧ _))

/-- The integer that a double is, if a small integer can stand for it. -/
def smallOf? (x : Binary64) : Option Int32 :=
  if x = .zero true then none
  else (x.toInt?.filter FitsSmall).map Int32.ofInt

def ofDouble (x : Binary64) : Value :=
  match smallOf? x with
  | some n => small n
  | none => number x

def toDouble : Value → Binary64
  | undefined | hole => .nan
  | null | boolean false => .zero false
  | boolean true => .ofInt 1
  | small n => .ofInt n.toInt
  | number x => x

/-- A value that is not a double standing where a small integer could. -/
def Canonical : Value → Prop
  | number x => smallOf? x = none
  | _ => True

instance : DecidablePred Canonical
  | number x => inferInstanceAs (Decidable (smallOf? x = none))
  | undefined | null | hole | boolean _ | small _ => inferInstanceAs (Decidable True)

/-- The text of a value: doubles by their shortest decimal, never with an exponent. -/
def text : Value → String
  | undefined => "undefined"
  | null => "null"
  | hole => "<hole>"
  | boolean b => if b then "true" else "false"
  | small n => toString n.toInt
  | number x =>
    let sign := if x.negative then "-" else ""
    if x.isNaN then "NaN"
    else if x.isInfinite then sign ++ "Infinity"
    else sign ++ String.ofList x.shortest.positional

end Value

end RegisterMachine
