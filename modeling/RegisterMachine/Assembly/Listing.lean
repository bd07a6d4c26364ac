import RegisterMachine.Bytecode.Basic

/-!
# Listings

The canonical text of bytecode: the size of the register file, the constants in order, the
instructions in order. Bytes from the first that does not decode on are listed as they are.

A double is listed with a point or an exponent, so that it is not read back as a small integer. The
exponent is used from `10 ^ 16` on and below `10 ^ (-4)`.
-/

namespace RegisterMachine

namespace Decimal

def literal (d : Decimal) : List Char :=
  if -3 ≤ d.order ∧ d.order ≤ 16 then
    if 0 ≤ d.exponent then d.positional ++ ['.', '0'] else d.positional
  else d.scientific

end Decimal

namespace Value

/-- The literal that the assembler reads back as a value. All NaNs have one literal. -/
def literal : Value → String
  | undefined => "undefined"
  | null => "null"
  | hole => "hole"
  | boolean b => if b then "true" else "false"
  | small n => toString n.toInt
  | number x =>
    let sign := if x.negative then "-" else ""
    if x.isNaN then "nan"
    else if x.isInfinite then sign ++ "inf"
    else sign ++ String.ofList x.shortest.literal

end Value

namespace Bytecode

def undecodedLine? (code : Bytecode) : Option String :=
  code.decode.error?.map fun _ =>
    ".bytes " ++ String.intercalate " "
      ((code.bytes.toList.drop code.decode.length).map Numeral.byteText)

def listingLines (code : Bytecode) : List String :=
  (".registers " ++ toString code.registerCount) ::
    code.constants.toList.map (".constant " ++ ·.literal) ++
    code.decode.instructions.map (·.instruction.text) ++ code.undecodedLine?.toList

/-- The canonical text of bytecode, every line closed by a line feed. -/
def listing (code : Bytecode) : String := String.join (code.listingLines.map (· ++ "\n"))

end Bytecode

end RegisterMachine
