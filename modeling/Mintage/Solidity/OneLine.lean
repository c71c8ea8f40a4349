import Mintage.Solidity.Stmt
import Mintage.Text.Blank

/-! Declarations of variables that are written on one line. Nothing is refused: what is missing
stays empty. -/
namespace Mintage.Solidity

/-- A single word as an expression. -/
def Expr.ofWord (s : String) : Expr :=
  let word := Text.trim s
  if word = "true" then .bool true
  else if word = "false" then .bool false
  else if (word.toList.head?.any Char.isDigit) then .number word
  else .ident word

/-- Cuts a text behind the parenthesis that closes the first open one. -/
def cutBalanced : Nat → List Char → Option (List Char × List Char)
  | _, [] => none
  | depth, c :: cs =>
    if c = '(' then (cutBalanced (depth + 1) cs).map fun cut => (c :: cut.1, cut.2)
    else if c = ')' then
      if depth ≤ 1 then some ([c], cs)
      else (cutBalanced (depth - 1) cs).map fun cut => (c :: cut.1, cut.2)
    else (cutBalanced depth cs).map fun cut => (c :: cut.1, cut.2)

/-- The type at the start of a declaration, and the rest. A mapping reaches to its closing
parenthesis, any other type to the first space. -/
def cutType (head : List Char) : List Char × List Char :=
  if "mapping(".toList.isPrefixOf head then (cutBalanced 0 head).getD (head, [])
  else (head.takeWhile (· != ' '), head.dropWhile (· != ' '))

/-- The words before a sign of equality are a type, modifiers and a name, those behind it are
the value. -/
def Variable.ofLine (line : String) : Variable :=
  let words := Text.words line
  let head := words.takeWhile (· != "=")
  let value := match words.dropWhile (· != "=") with
    | [] => none
    | _ :: ws => some (Expr.ofWord (Text.spaced ws))
  let (type, rest) := cutType (Text.spaced head).toList
  let rest := Text.words (String.ofList rest)
  { type := String.ofList type
    modifiers := rest.dropLast
    name := rest.getLast?.getD ""
    value }

end Mintage.Solidity
