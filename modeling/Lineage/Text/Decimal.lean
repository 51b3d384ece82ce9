/-!
# Decimal numbers

Numbers are written without leading zeros or padded with them to a width, and read from any digits,
a plus sign in front allowed.
-/

namespace Lineage.Decimal

/-- The decimal digits of a number, at least `width` of them. -/
def padded (width n : Nat) : List Char :=
  let digits := Nat.toDigits 10 n
  List.replicate (width - digits.length) '0' ++ digits

/-- The number that one or more decimal digits write. -/
def read? (cs : List Char) : Option Nat :=
  if cs ≠ [] ∧ cs.all Char.isDigit then some (Nat.ofDigitChars 10 cs 0) else none

/-- A number of 64 bits, with or without a plus sign. -/
def readUInt64? (cs : List Char) : Option UInt64 := do
  let digits := match cs with
    | '+' :: rest => rest
    | _ => cs
  let n ← read? digits
  if n < UInt64.size then some (UInt64.ofNat n) else none

end Lineage.Decimal
