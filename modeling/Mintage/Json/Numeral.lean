import Mintage.Decimal
import Mintage.Json.Reader

/-! Numbers in JSON. -/
namespace Mintage.Json

structure Numeral where
  negative : Bool
  whole : List Char
  fraction : Option (List Char)
  exponent : Option Int
  deriving Repr

namespace Numeral

/-- One digit or more. -/
def digits (atEnd : Fault) (cs : List Char) : Except Fault (List Char × List Char) :=
  match cs.takeWhile Char.isDigit with
  | [] => .error (if cs.isEmpty then atEnd else .malformed)
  | ds => .ok (ds, cs.dropWhile Char.isDigit)

/-- The digits behind a point, if there is one. -/
def readFraction (atEnd : Fault) : Reader (Option (List Char))
  | '.' :: cs => do
    let (ds, rest) ← digits atEnd cs
    .ok (some ds, rest)
  | cs => .ok (none, cs)

/-- The sign in front of an exponent. -/
def readSign : List Char → Int × List Char
  | '-' :: cs => (-1, cs)
  | '+' :: cs => (1, cs)
  | cs => (1, cs)

def readExponent (atEnd : Fault) : Reader (Option Int)
  | c :: cs =>
    if c = 'e' ∨ c = 'E' then do
      let (sign, cs) := readSign cs
      let (ds, rest) ← digits atEnd cs
      .ok (some (sign * Decimal.value ds), rest)
    else .ok (none, c :: cs)
  | [] => .ok (none, [])

/-- A number; `atEnd` is the fault of one that the end of the text cuts off. -/
def read (atEnd : Fault) : Reader Numeral := fun cs => do
  let (negative, cs) := match cs with
    | '-' :: rest => (true, rest)
    | _ => (false, cs)
  let (whole, rest) ← digits atEnd cs
  if whole.length > 1 ∧ whole.head? = some '0' then .error .malformed
  else
    let (fraction, rest) ← readFraction atEnd rest
    let (exponent, rest) ← readExponent atEnd rest
    .ok (⟨negative, whole, fraction, exponent⟩, rest)

/-- The value of a number that is written with digits alone. -/
def natural? (n : Numeral) : Option Nat :=
  if n.negative || n.fraction.isSome || n.exponent.isSome then none
  else some (Decimal.value n.whole)

/-- Appends digits to a number while it stays below `2 ^ 64`, and counts those left over. -/
def absorb (number : Nat) : List Char → Nat × Nat
  | [] => (number, 0)
  | d :: ds =>
    let next := 10 * number + Decimal.value [d]
    if next < UInt64.size then absorb next ds else (number, ds.length + 1)

/-- The number with 53 binary digits that is nearest, the even one of two. -/
def nearest53 (n : Nat) : Nat :=
  let unit := Nat.pow 2 (n.log2 - 52)
  let down := n / unit
  let twice := 2 * (n % unit)
  if twice < unit ∨ (twice = unit ∧ down % 2 = 0) then down * unit else (down + 1) * unit

/-- Whether the number is out of the range of double precision, when it is taken as the product of
its first digits and a power of ten. -/
def overflows (n : Numeral) : Bool :=
  let fraction := n.fraction.getD []
  let (number, raised) := absorb 0 n.whole
  let (number, unused) := absorb number fraction
  let power : Int := raised - (fraction.length - unused : Nat) + n.exponent.getD 0
  number != 0 && 0 ≤ power &&
    (308 < power ||
      Nat.pow 2 1024 - Nat.pow 2 970 ≤
        nearest53 number * nearest53 (Nat.pow 10 power.toNat))

/-- A number that is kept; it has to be in the range of double precision. -/
def readKept : Reader Numeral := fun cs => do
  let (n, rest) ← read .unfinished cs
  if n.overflows then .error .malformed else .ok (n, rest)

end Numeral

end Mintage.Json
