import Mathlib.Data.List.Infix
import Mintage.Proofs.Execution.Value

/-! The execution of the functions of a contract. What fails has no result, and a call that fails
leaves the store as it was. -/
namespace Mintage.Solidity

/-- A computation that may change the store, or fail. -/
abbrev Effect := Store → Option (Value × Store)

/-- What the code of a contract refers to besides its locals. -/
structure Scope where
  message : Message
  constants : List (String × Expr)
  /-- The functions of the contract, and those of its bases that it does not replace. -/
  call : String → List Value → Effect
  inherited : String → List Value → Effect

/-- A place that can be assigned to. -/
inductive Place where
  | name (name : String)
  | entry (map : String) (key : Nat)

namespace Place

def value (place : Place) (store : Store) : Value :=
  match place with
  | name n => store.fields n
  | entry map key => store.entries map key

def update (place : Place) (value : Value) (store : Store) : Store :=
  match place with
  | name n =>
    { store with fields := fun m => if m = n then value else store.fields m }
  | entry map key =>
    { store with entries := fun m k => if m = map ∧ k = key then value else store.entries m k }

/-- The place with the value that an assignment gives to it. -/
def assign? (place : Place) (operator : String) (value : Value) (store : Store) : Option Store :=
  if operator = "=" then some (place.update value store)
  else if operator = "+=" then
    ((place.value store).combine? "+" value).map fun sum => place.update sum store
  else none

end Place

namespace Store

/-- An element of a list that is a local, or an entry of a map of the contract. -/
def element (store : Store) (locals : Locals) (name : String) (key : Nat) : Option Value :=
  match locals.lookup name with
  | some (.numbers ns) => ns[key]?.map .number
  | some _ => none
  | none => some (store.entries name key)

def pay (store : Store) (account : Expr) (amount : Nat) : Store :=
  { store with balance := store.balance - amount, sent := store.sent ++ [(account, amount)] }

/-- Sends ether, if the contract has enough. -/
def send (store : Store) (values : List Value) : Option (Value × Store) :=
  match values with
  | [.payee account, .number amount] =>
    if amount ≤ store.balance then some (.unit, store.pay account amount) else none
  | _ => none

/-- Counts one more. -/
def increment (store : Store) (counter : String) : Option (Value × Store) :=
  if store.counters counter + 1 < wordBound then
    some (.unit, { store with
      counters := fun c => store.counters c + if c = counter then 1 else 0 })
  else none

/-- Creates a token, unless it exists. -/
def mint (store : Store) (id : Nat) : Option (Value × Store) :=
  if id ∈ store.tokens then none
  else some (.unit, { store with tokens := id :: store.tokens })

end Store

/-- Whether a text reads a field of the record of parameters. -/
def mentionsField (text : String) : Bool := decide ("parameters.".toList <:+: text.toList)

/-- Whether an expression shows a field of the record of parameters as a text. -/
def Expr.showsField : Expr → Bool
  | .ident text => mentionsField text
  | .call (.member (.ident library) _) (.ident text :: _) =>
    library == "Strings" && mentionsField text
  | _ => false

namespace Scope

variable (scope : Scope)

/-- The value of a single name. -/
def named (locals : Locals) (name : String) (store : Store) : Option Value :=
  match locals.lookup name with
  | some value => some value
  | none =>
    if name = "msg.sender" then some (.number scope.message.sender)
    else if name = "msg.value" then some (.number scope.message.value)
    else if name = "this" then some .self
    else
      match scope.constants.lookup name with
      | some e => e.literal?
      | none => some (store.fields name)

/-- The value of an identifier, which may be a choice such as `a >= b ? a : b`. -/
def read (locals : Locals) (text : String) (store : Store) : Option Value :=
  match Text.words text with
  | [left, operator, right, "?", yes, ":", no] => do
    let a ← scope.named locals left store
    let b ← scope.named locals right store
    match a.combine? operator b with
    | some (.truth true) => scope.named locals yes store
    | some (.truth false) => scope.named locals no store
    | _ => none
  | _ => scope.named locals text store

/-- Conversions, which leave the value as it is. -/
def conversions : List String := ["address", "bytes", "string", "IERC721"]

/-- Applies a function that has a name. -/
def apply (function : String) (values : List Value) (store : Store) :
    Option (Value × Store) :=
  if function = "require" then
    match values with
    | .truth true :: _ => some (.unit, store)
    | _ => none
  else if function ∈ conversions then values.head?.map fun value => (value, store)
  else scope.call function values store

/-- What another contract answers is not known. -/
def ask (store : Store) : Option (Value × Store) :=
  some (scope.message.answers store.questions, { store with questions := store.questions + 1 })

/-- Calls a function of an object. -/
def applyMember (object function : String) (values : List Value) (store : Store) :
    Option (Value × Store) :=
  if object = "super" then scope.inherited function values store
  else if object = "Address" ∧ function = "sendValue" then store.send values
  else if object = "Strings" ∧ function = "toString" then
    match values with
    | [.number n] => some (.text (toString n), store)
    | _ => none
  else if function = "increment" then store.increment object
  else if function = "current" then some (.number (store.counters object), store)
  else if function = "balanceOf" ∨ function = "ownerOf" then scope.ask store
  else none

end Scope

mutual

def Expr.eval (scope : Scope) (locals : Locals) : Expr → Effect
  | .ident text, store => (scope.read locals text store).map (·, store)
  | .number digits, store => (numeral? digits).map fun n => (.number n, store)
  | .string s, store => some (.text s, store)
  | .bool b, store => some (.truth b, store)
  | .member object name, store => do
    let (value, store) ← object.eval scope locals store
    let part ← value.member? name store
    return (part, store)
  | .index object key, store => do
    let (.number k, store) ← key.eval scope locals store | none
    let .ident name := object | none
    let value ← store.element locals name k
    return (value, store)
  | .call callee arguments, store =>
    match callee with
    | .ident function =>
      if function = "revert" then none
      else if function = "payable" then arguments.head?.map fun account => (.payee account, store)
      else do
        let (values, store) ← Expr.evalAll scope locals arguments store
        scope.apply function values store
    | .member (.ident object) function =>
      if function = "encodePacked" then do
        let (s, store) ← Expr.pack scope locals arguments store
        return (.text s, store)
      else do
        let (values, store) ← Expr.evalAll scope locals arguments store
        scope.applyMember object function values store
    | _ => none
  | .callNamed _ _, _ => none
  | .assign target operator value, store => do
    let (value, store) ← value.eval scope locals store
    let (place, store) ← target.place scope locals store
    let store ← place.assign? operator value store
    return (.unit, store)
  | .binary left operator right, store => do
    let (a, store) ← left.eval scope locals store
    let (b, store) ← right.eval scope locals store
    let value ← a.combine? operator b
    return (value, store)

def Expr.evalAll (scope : Scope) (locals : Locals) :
    List Expr → Store → Option (List Value × Store)
  | [], store => some ([], store)
  | e :: es, store => do
    let (value, store) ← e.eval scope locals store
    let (values, store) ← Expr.evalAll scope locals es store
    return (value :: values, store)

/-- The texts one after the other; a field of a record is shown as the record has it. -/
def Expr.pack (scope : Scope) (locals : Locals) :
    List Expr → Store → Option (String × Store)
  | [], store => some ("", store)
  | e :: es, store => do
    let (.text s, store) ←
      (if e.showsField then
        match locals.lookup "parameters" with
        | some (.record texts) => some (.text (texts e), store)
        | _ => none
      else e.eval scope locals store) | none
    let (rest, store) ← Expr.pack scope locals es store
    return (s ++ rest, store)

/-- The place that an expression stands for. -/
def Expr.place (scope : Scope) (locals : Locals) : Expr → Store → Option (Place × Store)
  | .ident name, store => some (.name name, store)
  | .index object key, store => do
    let (.number k, store) ← key.eval scope locals store | none
    let .ident name := object | none
    return (.entry name k, store)
  | _, _ => none

end

/-- How a statement ends: the next one follows, or the function returns. -/
inductive Flow where
  | next (locals : Locals)
  | done (value : Value)

namespace Flow

/-- The locals of a block end with it. -/
def leave (locals : Locals) : Flow → Flow
  | next _ => next locals
  | done value => done value

def value : Flow → Value
  | next _ => .unit
  | done value => value

end Flow

/-- The counter of a loop and the local up to which it counts from zero. -/
def countedLoop? (start test step : String) : Option (String × String) :=
  match Text.words start, Text.words test with
  | [_, i, "=", "0"], [j, "<", n] => if i = j ∧ step = i ++ "++" then some (i, n) else none
  | _, _ => none

/-- So many rounds, which are numbered from `first`. -/
def rounds (round : Nat → Store → Option (Flow × Store)) (locals : Locals) :
    (first count : Nat) → Store → Option (Flow × Store)
  | _, 0, store => some (.next locals, store)
  | k, count + 1, store =>
    match round k store with
    | some (.next _, store) => rounds round locals (k + 1) count store
    | ended => ended

mutual

def Stmt.exec (scope : Scope) : Stmt → Locals → Store → Option (Flow × Store)
  | .expr e, locals, store => do
    let (_, store) ← e.eval scope locals store
    return (.next locals, store)
  | .decl v, locals, store => do
    let e ← v.value
    let (value, store) ← e.eval scope locals store
    return (.next ((v.name, value) :: locals), store)
  | .ret none, _, store => some (.done .unit, store)
  | .ret (some e), locals, store => do
    let (value, store) ← e.eval scope locals store
    return (.done value, store)
  | .cond test body alternative, locals, store => do
    let (.truth passed, store) ← test.eval scope locals store | none
    let (flow, store) ←
      if passed then Stmt.execAll scope body locals store
      else Stmt.execAlternative scope alternative locals store
    return (flow.leave locals, store)
  | .loop start test step body, locals, store => do
    let (i, n) ← countedLoop? start test step
    let .number count ← locals.lookup n | none
    rounds (fun k => Stmt.execAll scope body ((i, .number k) :: locals)) locals 0 count store

def Stmt.execAll (scope : Scope) : List Stmt → Locals → Store → Option (Flow × Store)
  | [], locals, store => some (.next locals, store)
  | s :: ss, locals, store =>
    match s.exec scope locals store with
    | some (.next locals, store) => Stmt.execAll scope ss locals store
    | ended => ended

def Stmt.execAlternative (scope : Scope) :
    Option (List Stmt) → Locals → Store → Option (Flow × Store)
  | none, locals, store => some (.next locals, store)
  | some ss, locals, store => Stmt.execAll scope ss locals store

end

end Mintage.Solidity
