import Mintage.Json.Numeral
import Mintage.Json.Text

/-! Values that are passed over, and values of another shape than the one wanted. -/
namespace Mintage.Json

mutual

/-- Passes over a value, in which only the form matters. -/
def skipWith : Nat → List Char → Except Fault (List Char)
  | 0, _ => .error .unfinished
  | fuel + 1, cs =>
    match dropSpace cs with
    | [] => .error .unfinished
    | '[' :: rest => skipItems fuel true rest
    | '{' :: rest => skipMembers fuel true rest
    | '"' :: rest => skipString rest
    | 'n' :: rest => letters ['u', 'l', 'l'] rest
    | 't' :: rest => letters ['r', 'u', 'e'] rest
    | 'f' :: rest => letters ['a', 'l', 's', 'e'] rest
    | c :: rest =>
      if c = '-' ∨ c.isDigit then (Numeral.read .malformed (c :: rest)).map (·.2)
      else .error .malformed

def skipItems : Nat → Bool → List Char → Except Fault (List Char)
  | 0, _, _ => .error .unfinished
  | fuel + 1, first, cs => do
    match ← nextItem first cs with
    | .close rest => .ok rest
    | .item rest =>
      let rest ← skipWith fuel rest
      skipItems fuel false rest

def skipMembers : Nat → Bool → List Char → Except Fault (List Char)
  | 0, _, _ => .error .unfinished
  | fuel + 1, first, cs => do
    match ← nextMember first cs with
    | .close rest => .ok rest
    | .item rest =>
      let rest ← skipString rest
      let rest ← colon rest
      let rest ← skipWith fuel rest
      skipMembers fuel false rest

end

/-- Passes over a value; every step takes a character. -/
def skip (cs : List Char) : Except Fault (List Char) := skipWith (2 * cs.length + 2) cs

/-- Reads a value without parts. -/
def scalar : List Char → Except Fault (List Char)
  | [] => .error .unfinished
  | '"' :: rest => (string rest).map (·.2)
  | 'n' :: rest => letters ['u', 'l', 'l'] rest
  | 't' :: rest => letters ['r', 'u', 'e'] rest
  | 'f' :: rest => letters ['a', 'l', 's', 'e'] rest
  | c :: rest =>
    if c = '-' ∨ c.isDigit then (Numeral.readKept (c :: rest)).map (·.2) else .error .malformed

/-- The fault of a value of another shape: a value without parts is read first, of a list or an
object only the bracket. -/
def refuse : List Char → Fault
  | '[' :: _ => .mismatched
  | '{' :: _ => .mismatched
  | cs =>
    match scalar cs with
    | .ok _ => .mismatched
    | .error fault => fault

end Mintage.Json
