/-!
# Numerals

Integers are written with ASCII digits only, in any number and with any number of leading zeros. A
plus sign may always precede them, a minus sign only where negative numbers are meant. A numeral
whose value lies outside the range of its place is no numeral there.
-/

namespace RegisterMachine.Numeral

def decimal? (digits : List Char) : Option Nat :=
  if digits.isEmpty || !digits.all Char.isDigit then none
  else some (Nat.ofDigitChars 10 digits 0)

def hexDigit? (c : Char) : Option Nat :=
  if c.isDigit then some (c.toNat - '0'.toNat)
  else if 'a' ≤ c ∧ c ≤ 'f' then some (c.toNat - 'a'.toNat + 10)
  else if 'A' ≤ c ∧ c ≤ 'F' then some (c.toNat - 'A'.toNat + 10)
  else none

def hexadecimal? (digits : List Char) : Option Nat :=
  if digits.isEmpty then none
  else (digits.mapM hexDigit?).map fun values => values.foldl (fun n d => 16 * n + d) 0

def afterPlus : List Char → List Char
  | '+' :: rest => rest
  | word => word

def unsigned? (limit : Nat) (word : List Char) : Option Nat :=
  (decimal? (afterPlus word)).filter (· < limit)

def hexByte? (word : List Char) : Option UInt8 :=
  ((hexadecimal? (afterPlus word)).filter (· < 256)).map UInt8.ofNat

def byte? (word : List Char) : Option UInt8 :=
  (unsigned? 256 word).map UInt8.ofNat

def integer? : List Char → Option Int
  | '-' :: rest => (decimal? rest).map fun n => -Int.ofNat n
  | word => (decimal? (afterPlus word)).map Int.ofNat

/-- An integer in the range of `bits` bits in two's complement. -/
def signed? (bits : Nat) (word : List Char) : Option Int :=
  (integer? word).filter fun n => decide (-2 ^ (bits - 1) ≤ n ∧ n < 2 ^ (bits - 1))

def byteText (byte : UInt8) : String :=
  "0x" ++ String.ofList [(byte.toNat / 16).digitChar, (byte.toNat % 16).digitChar]

end RegisterMachine.Numeral
