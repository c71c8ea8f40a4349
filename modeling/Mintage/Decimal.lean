/-! Decimal amounts with a bounded number of places, read as whole numbers of the smallest unit. -/
namespace Mintage.Decimal

/-- The largest amount that is accepted, in units. -/
def ceiling : Nat := Nat.pow 2 128 - 1

/-- The text before the first point and the text after it. -/
def parts (s : String) : List Char × List Char :=
  let cs := s.toList
  (cs.takeWhile (· != '.'), (cs.dropWhile (· != '.')).drop 1)

/-- The number that a row of digits denotes. -/
def value (digits : List Char) : Nat := Nat.ofDigitChars 10 digits 0

/-- An amount in units of `10 ^ -places`, if the text is a decimal number with at most so many
places and does not exceed the ceiling. -/
def read? (places : Nat) (s : String) : Option Nat :=
  let (whole, fraction) := parts s
  if (whole ++ fraction).isEmpty || !(whole ++ fraction).all Char.isDigit
      || fraction.length > places then none
  else
    let units := value whole * Nat.pow 10 places +
      value fraction * Nat.pow 10 (places - fraction.length)
    if units ≤ ceiling then some units else none

end Mintage.Decimal
