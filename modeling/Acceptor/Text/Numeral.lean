/-!
# Numerals

A numeral is a run of decimal digits, with a plus sign allowed before it, for a number that fits
into 64 bits.

## Main definitions

* `Text.numeral?`: the number of a numeral.
-/

namespace Acceptor

namespace Text

/-- The number of values that fit into 64 bits. -/
def numeralBound : Nat := UInt64.size

/-- The value of a digit. -/
def digitValue (c : Char) : Nat := c.toNat - '0'.toNat

/-- The value of a row of digits. -/
def digitsValue (ds : List Char) : Nat := ds.foldl (fun n d => 10 * n + digitValue d) 0

/-- The digits of a numeral: all but a plus sign at its start. -/
def unsignedPart : List Char → List Char
  | '+' :: ds => ds
  | ds => ds

/-- The number of a numeral. -/
def numeral? (cs : List Char) : Option Nat :=
  let ds := unsignedPart cs
  if ds ≠ [] ∧ ds.all Char.isDigit ∧ digitsValue ds < numeralBound then some (digitsValue ds)
  else none

end Text

end Acceptor
