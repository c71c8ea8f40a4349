import Mintage.Proofs.Solidity.Dense
import Mintage.Solidity.OneLine

/-! A reader of expressions beside the printer: it finds every expression again in the page that is
printed for it, so that different expressions are never printed alike. -/
namespace Mintage.Solidity

open Layout Text

def binaryOperators : List String := ["+", "-", "*", "/", "==", "<", "<=", ">", ">=", "||"]

def assignments : List String := ["=", "+="]

def isOperatorSign (c : Char) : Bool := "+-*/=<>|".toList.contains c

namespace Expr

def isAssign : Expr → Bool
  | assign .. => true
  | _ => false

mutual

/-- Whether the parts of an expression are legal where they stand. -/
def isReadable : Expr → Bool
  | ident name => isName name && name != "true" && name != "false"
  | number digits => !digits.isEmpty && digits.toList.all Char.isDigit
  | string _ => true
  | bool _ => true
  | member object name => object.isReadable && !object.isCompound && isName name
  | index object key => object.isReadable && !object.isCompound && key.isReadable
  | call callee arguments => callee.isReadable && !callee.isCompound && allReadable arguments
  | callNamed callee arguments => callee.isReadable && !callee.isCompound && namedReadable arguments
  | assign target operator value =>
    target.isReadable && !target.isAssign && assignments.contains operator && value.isReadable
  | binary left operator right =>
    left.isReadable && binaryOperators.contains operator && right.isReadable

def allReadable : List Expr → Bool
  | [] => true
  | e :: es => e.isReadable && allReadable es

def namedReadable : List (String × Expr) → Bool
  | [] => true
  | (name, e) :: es => isName name && e.isReadable && namedReadable es

end

theorem allReadable_iff {es : List Expr} :
    allReadable es = true ↔ ∀ e ∈ es, e.isReadable = true := by
  induction es with
  | nil => simp [allReadable]
  | cons e es ih => simp [allReadable, ih]

theorem namedReadable_iff {es : List (String × Expr)} :
    namedReadable es = true ↔ ∀ e ∈ es, isName e.1 = true ∧ e.2.isReadable = true := by
  induction es with
  | nil => simp [namedReadable]
  | cons e es ih => simp [namedReadable, ih, and_assoc]

end Expr

/-- What is found at the start of a text, and the rest of the text. -/
abbrev Reader (α : Type) := List Char → Option (α × List Char)

namespace Reader

variable {α : Type}

def operator (operators : List String) : Reader String := fun cs =>
  let signs := String.ofList (cs.takeWhile isOperatorSign)
  if signs ∈ operators then some (signs, cs.dropWhile isOperatorSign) else none

/-- Something that a sign has to follow. -/
def closed (closing : Char) (reader : Reader α) : Reader α := fun cs =>
  (reader cs).bind fun r => if r.2.head? = some closing then some (r.1, r.2.tail) else none

/-- One item or several, with commas between them. -/
def items (item : Reader α) : Nat → Reader (List α)
  | 0, _ => none
  | fuel + 1, cs =>
    (item cs).bind fun r =>
      if r.2.head? = some ',' then
        (items item fuel r.2.tail).map fun rs => (r.1 :: rs.1, rs.2)
      else some ([r.1], r.2)

/-- The items up to the closing sign, perhaps none. -/
def list (item : Reader α) (closing : Char) (fuel : Nat) : Reader (List α) := fun cs =>
  if cs.head? = some closing then some ([], cs.tail) else closed closing (items item fuel) cs

def named (value : Reader Expr) : Reader (String × Expr) := fun cs =>
  let rest := cs.dropWhile continuesName
  if rest.head? = some ':' then
    (value rest.tail).map fun r => ((String.ofList (cs.takeWhile continuesName), r.1), r.2)
  else none

section Expressions

variable (inner : Reader Expr) (fuel : Nat)

/-- What may stand behind an expression: its members, keys and arguments. -/
def suffixes : Nat → Expr → Reader Expr
  | 0, e, cs => some (e, cs)
  | _ + 1, e, [] => some (e, [])
  | n + 1, e, c :: cs =>
    if c = '.' then
      suffixes n (.member e (String.ofList (cs.takeWhile continuesName)))
        (cs.dropWhile continuesName)
    else if c = '[' then
      (closed ']' inner cs).bind fun r => suffixes n (.index e r.1) r.2
    else if c = '(' then
      if cs.head? = some '\x7b' then
        (closed ')' (list (named inner) '\x7d' fuel) cs.tail).bind fun r =>
          suffixes n (.callNamed e r.1) r.2
      else (list inner ')' fuel cs).bind fun r => suffixes n (.call e r.1) r.2
    else some (e, c :: cs)

/-- An expression in parentheses, or a literal or a word with so many suffixes. -/
def operand (n : Nat) : Reader Expr := fun cs =>
  if cs.head? = some '(' then closed ')' inner cs.tail
  else if cs.head? = some '"' then
    (Quoted.decode cs.tail).bind fun r => suffixes inner fuel n (.string (String.ofList r.1)) r.2
  else
    suffixes inner fuel n (.ofWord (String.ofList (cs.takeWhile continuesName)))
      (cs.dropWhile continuesName)

/-- An operand or two: all that may stand in front of an assignment. -/
def side : Reader Expr := fun cs =>
  (operand inner fuel fuel cs).bind fun left =>
    match operator binaryOperators left.2 with
    | none => some left
    | some sign =>
      (operand inner fuel fuel sign.2).map fun right => (.binary left.1 sign.1 right.1, right.2)

def whole : Reader Expr := fun cs =>
  (side inner fuel cs).bind fun target =>
    match operator assignments target.2 with
    | none => some target
    | some sign => (inner sign.2).map fun value => (.assign target.1 sign.1 value.1, value.2)

end Expressions

end Reader

/-- Reads an expression, whose parts are not nested more deeply than there is fuel. -/
def Expr.read : Nat → Reader Expr
  | 0 => fun _ => none
  | fuel + 1 => Reader.whole (Expr.read fuel) fuel

/-- The text behind does not go on with such a character. -/
def Stops (p : Char → Bool) (rest : List Char) : Prop := ∀ c ∈ rest.head?, p c = false

namespace Stops

variable {p q : Char → Bool} {c : Char} {cs rest : List Char}

theorem nil (p : Char → Bool) : Stops p [] := nofun

theorem cons (other : p c = false) (rest : List Char) : Stops p (c :: rest) := by
  intro d first
  cases first
  exact other

/-- What does not go on with one of many characters does not go on with one of fewer. -/
theorem mono (stops : Stops p rest) (less : ∀ c, q c = true → p c = true) : Stops q rest := by
  intro c first
  have other := stops c first
  by_contra more
  rw [less c (by simpa using more)] at other
  cases other

/-- A stretch is taken as a whole from a text that stops behind it, and nothing of the rest. -/
theorem takeWhile (stops : Stops p rest) (all : cs.all p = true) :
    (cs ++ rest).takeWhile p = cs := by
  rw [List.takeWhile_append_of_pos (List.all_eq_true.1 all)]
  cases rest with
  | nil => simp
  | cons c rest => simp [stops c rfl]

theorem dropWhile (stops : Stops p rest) (all : cs.all p = true) :
    (cs ++ rest).dropWhile p = rest := by
  rw [List.dropWhile_append_of_pos (List.all_eq_true.1 all)]
  cases rest with
  | nil => rfl
  | cons c rest => simp [stops c rfl]

end Stops

/-- The characters that make more of an operand if they follow it. -/
def extendsOperand (c : Char) : Bool := continuesName c || c == '.' || c == '[' || c == '('

/-- The characters that make more of an expression if they follow it. -/
def extendsExpr (c : Char) : Bool := extendsOperand c || isOperatorSign c

namespace Reader

variable {α : Type} {cs rest : List Char}

/-- The longest run of operator signs is taken for the operator. -/
theorem operator_append {signs : String} (all : signs.toList.all isOperatorSign = true)
    (stops : Stops isOperatorSign rest) (operators : List String) :
    operator operators (signs.toList ++ rest) =
      if signs ∈ operators then some (signs, rest) else none := by
  rw [operator, stops.takeWhile all, stops.dropWhile all, String.ofList_toList]

theorem operator_of_stops (stops : Stops isOperatorSign rest) {operators : List String}
    (some : "" ∉ operators) : operator operators rest = none := by
  have read := operator_append (show "".toList.all isOperatorSign = true by decide) stops operators
  rwa [if_neg some] at read

theorem closed_of_eq {reader : Reader α} {x : α} {closing : Char}
    (read : reader cs = some (x, closing :: rest)) : closed closing reader cs = some (x, rest) := by
  rw [closed, read]
  simp

/-- If every item is read in front of a comma and in front of the rest, all of them are read. -/
theorem items_intercalate {item : Reader α} {spell : α → List Char}
    (ends : rest.head? ≠ some ',') {fuel : Nat} {xs : List α} (enough : xs.length ≤ fuel)
    (filled : xs ≠ [])
    (each : ∀ x ∈ xs, ∀ more, more = rest ∨ more.head? = some ',' →
      item (spell x ++ more) = some (x, more)) :
    items item fuel ([','].intercalate (xs.map spell) ++ rest) = some (xs, rest) := by
  induction fuel generalizing xs with
  | zero => exact absurd (List.length_eq_zero_iff.1 (Nat.le_zero.1 enough)) filled
  | succ fuel ih =>
    match xs with
    | [] => exact absurd rfl filled
    | [x] =>
      rw [List.map_singleton, List.intercalate_singleton, items,
        each x List.mem_cons_self rest (.inl rfl)]
      simp [ends]
    | x :: y :: xs =>
      have here := each x List.mem_cons_self
        (',' :: ([','].intercalate ((y :: xs).map spell) ++ rest)) (.inr rfl)
      have later : items item fuel ([','].intercalate ((y :: xs).map spell) ++ rest) =
          some (y :: xs, rest) :=
        ih (by simpa using enough) (List.cons_ne_nil y xs) fun z mem =>
          each z (List.mem_cons_of_mem x mem)
      rw [List.map_cons] at here later
      rw [List.map_cons, List.map_cons, List.intercalate_cons_cons, List.append_assoc,
        List.append_assoc, List.singleton_append, items, here]
      simp [later]

/-- The first sign of a list is that of its first item, or what stands behind an empty list. -/
theorem head?_intercalate_ne {spell : α → List Char} {xs : List α} {d : Char}
    (ends : xs = [] → rest.head? ≠ some d)
    (starts : ∀ x ∈ xs, ∃ c cs, spell x = c :: cs ∧ c ≠ d) :
    ([','].intercalate (xs.map spell) ++ rest).head? ≠ some d := by
  match xs with
  | [] => simpa using ends rfl
  | [x] =>
    obtain ⟨c, cs, same, other⟩ := starts x List.mem_cons_self
    simpa [same] using other
  | x :: y :: xs =>
    obtain ⟨c, cs, same, other⟩ := starts x List.mem_cons_self
    simpa [same, List.intercalate_cons_cons] using other

/-- A list is read up to its closing sign, which no item begins with. -/
theorem list_intercalate {item : Reader α} {spell : α → List Char} {closing : Char}
    (notComma : closing ≠ ',') {fuel : Nat} {xs : List α} (enough : xs.length ≤ fuel)
    (starts : ∀ x ∈ xs, ∃ c cs, spell x = c :: cs ∧ c ≠ closing)
    (each : ∀ x ∈ xs, ∀ more, more = closing :: rest ∨ more.head? = some ',' →
      item (spell x ++ more) = some (x, more)) :
    list item closing fuel ([','].intercalate (xs.map spell) ++ closing :: rest) =
      some (xs, rest) := by
  by_cases none : xs = []
  · simp [none, list]
  · have read : items item fuel ([','].intercalate (xs.map spell) ++ closing :: rest) =
        some (xs, closing :: rest) :=
      items_intercalate (by simpa using notComma) enough none each
    rw [list, if_neg (head?_intercalate_ne (fun empty => absurd empty none) starts)]
    exact closed_of_eq read

theorem named_append {value : Reader Expr} {name : String}
    (isName : name.toList.all continuesName = true) {e : Expr}
    (read : value cs = some (e, rest)) :
    named value (name.toList ++ ':' :: cs) = some ((name, e), rest) := by
  have stops : Stops continuesName (':' :: cs) := .cons rfl cs
  rw [named, stops.takeWhile isName, stops.dropWhile isName]
  simp [read]

end Reader

end Mintage.Solidity
