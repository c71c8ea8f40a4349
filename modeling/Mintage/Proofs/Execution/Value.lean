import Mathlib.Algebra.Ring.Nat
import Mintage.Decimal
import Mintage.Solidity.Program
import Mintage.Text.Blank

/-! The values with which a contract works, and what it and its bases store. -/
namespace Mintage.Solidity

/-- An account is a number. A record of parameters is known by the texts that its fields show as. -/
inductive Value where
  | unit
  | number (n : Nat)
  | truth (b : Bool)
  | text (s : String)
  | numbers (ns : List Nat)
  | record (texts : Expr → String)
  /-- An account to which ether can be sent. -/
  | payee (account : Expr)
  /-- The contract itself. -/
  | self

/-- The values by name that a function has at hand, the last declared first. -/
abbrev Locals := List (String × Value)

structure Store where
  /-- The ether of the contract. -/
  balance : Nat
  /-- The ether that was sent away: to whom and how much. -/
  sent : List (Expr × Nat)
  owner : Nat
  /-- The tokens that exist, the last minted first. -/
  tokens : List Nat
  counters : String → Nat
  fields : String → Value
  entries : String → Nat → Value
  /-- How often other contracts were asked. -/
  questions : Nat

/-- Who calls a contract with how much ether, and what other contracts will answer. -/
structure Message where
  sender : Nat
  value : Nat
  answers : Nat → Value

/-- The numbers of the machine lie below. -/
def wordBound : Nat := 2 ^ 256

/-- The number that a row of decimal digits denotes. -/
def numeral? (digits : String) : Option Nat :=
  if digits.toList.isEmpty || !digits.toList.all Char.isDigit then none
  else some (Decimal.value digits.toList)

@[simp] theorem numeral?_repr (n : Nat) : numeral? n.repr = some n := by
  have digits : (Nat.toDigits 10 n).all Char.isDigit = true :=
    List.all_eq_true.2 fun c mem => Nat.isDigit_of_mem_toDigits (by decide) (by decide) mem
  simp [numeral?, Decimal.value, digits]

/-- The value of a constant. -/
def Expr.literal? : Expr → Option Value
  | .number digits => (numeral? digits).map .number
  | .string s => some (.text s)
  | .bool b => some (.truth b)
  | _ => none

@[simp] theorem Expr.literal?_nat (n : Nat) : (Expr.nat n).literal? = some (.number n) := by
  simp [Expr.nat, literal?]

/-- A result that fits in a word; any other fails. -/
def checked (n : Nat) : Option Value := if n < wordBound then some (.number n) else none

/-- A result that is checked is the result. -/
theorem eq_number_of_checked {n : Nat} {value : Value} (fits : checked n = some value) :
    value = .number n := by
  unfold checked at fits
  split at fits
  · cases fits; rfl
  · cases fits

/-- The operations on numbers; division rounds down. -/
def arithmetic (operator : String) (a b : Nat) : Option Value :=
  if operator = "+" then checked (a + b)
  else if operator = "-" then if b ≤ a then some (.number (a - b)) else none
  else if operator = "*" then checked (a * b)
  else if operator = "/" then if b = 0 then none else some (.number (a / b))
  else if operator = "<" then some (.truth (a < b))
  else if operator = "<=" then some (.truth (a ≤ b))
  else if operator = ">" then some (.truth (b < a))
  else if operator = ">=" then some (.truth (b ≤ a))
  else if operator = "==" then some (.truth (a = b))
  else none

namespace Value

def combine? (operator : String) : Value → Value → Option Value
  | number a, number b => arithmetic operator a b
  | truth a, truth b => if operator = "||" then some (.truth (a || b)) else none
  | _, _ => none

@[simp] theorem combine?_number (operator : String) (a b : Nat) :
    combine? operator (number a) (number b) = arithmetic operator a b := rfl

/-- A member of a value. -/
def member? (name : String) (store : Store) : Value → Option Value
  | self => if name = "balance" then some (number store.balance) else none
  | text s => if name = "length" then some (number s.utf8ByteSize) else none
  | numbers ns => if name = "length" then some (number ns.length) else none
  | _ => none

/-- Whether an argument of a function takes the value. -/
def hasType (type : String) : Value → Bool
  | number n => type == "address" || (type == "uint256" && n < wordBound)
  | truth _ => type == "bool"
  | text _ => type == "string"
  | numbers ns => type == "uint256[]" && ns.all (· < wordBound)
  | record _ => type == "TokenParameters"
  | _ => false

end Value

/-- The name and the type of an argument as it is written; it may have no name. -/
def argumentOf (line : String) : Option (String × String) :=
  match Text.words line with
  | [] => none
  | type :: words => some (words.getLast?.getD "", type)

/-- The arguments of a function with the values of a call. -/
def bindArguments : List String → List Value → Option Locals
  | [], [] => some []
  | line :: lines, value :: values =>
    (argumentOf line).bind fun argument =>
      if value.hasType argument.2 then
        (bindArguments lines values).map ((argument.1, value) :: ·)
      else none
  | _, _ => none

/-- What a call passes for the first argument becomes the first local. -/
theorem bindArguments_cons {line name type : String} {lines : List String} {values : List Value}
    {locals : Locals} (argument : argumentOf line = some (name, type))
    (bound : bindArguments (line :: lines) values = some locals) :
    ∃ value others rest, values = value :: others ∧ value.hasType type = true ∧
      bindArguments lines others = some rest ∧ locals = (name, value) :: rest := by
  cases values with
  | nil => cases bound
  | cons value others =>
    simp only [bindArguments, argument, Option.bind_some] at bound
    split at bound
    · rename_i typed
      obtain ⟨rest, later, rfl⟩ := Option.map_eq_some_iff.1 bound
      exact ⟨value, others, rest, rfl, typed, later, rfl⟩
    · cases bound

theorem bindArguments_nil {values : List Value} {locals : Locals}
    (bound : bindArguments [] values = some locals) : locals = [] := by
  cases values with
  | nil => cases bound; rfl
  | cons value values => cases bound

namespace Value

theorem eq_number_of_hasType {value : Value} (typed : value.hasType "uint256" = true) :
    ∃ n, value = number n := by
  cases value with
  | number n => exact ⟨n, rfl⟩
  | _ => cases typed

theorem eq_numbers_of_hasType {value : Value} (typed : value.hasType "uint256[]" = true) :
    ∃ ns, value = numbers ns := by
  cases value with
  | numbers ns => exact ⟨ns, rfl⟩
  | _ => cases typed

end Value

end Mintage.Solidity
