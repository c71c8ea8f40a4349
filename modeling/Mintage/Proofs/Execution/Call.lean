import Mintage.Proofs.Execution.Run

/-! Calls of the functions of a contract: from its own code, and from outside. -/
namespace Mintage.Solidity

namespace Member

/-- The name that a member declares. -/
def name? : Member → Option String
  | declaration (.field v) => some v.name
  | declaration (.function f) => some f.name
  | declaration (.record name _) => some name
  | _ => none

def function? : Member → Option Function
  | declaration (.function f) => some f
  | _ => none

/-- The name of a constant and the expression that it stands for. -/
def constant? : Member → Option (String × Expr)
  | declaration (.field v) =>
    if v.modifiers.contains "constant" then v.value.map (v.name, ·) else none
  | _ => none

end Member

/-- Whether a function can be called from outside with a message. -/
def Function.admits (f : Function) (message : Message) (store : Store) : Bool :=
  (f.modifiers.contains "public" || f.modifiers.contains "external") &&
    (f.modifiers.contains "payable" || message.value == 0) &&
    (!f.modifiers.contains "onlyOwner" || message.sender == store.owner)

/-- How deep calls may be nested. -/
def callDepth : Nat := 1024

namespace Contract

variable (c : Contract)

/-- The names that the contract declares, in their order. -/
def declared : List String := c.body.filterMap Member.name?

def function? (name : String) : Option Function :=
  (c.body.filterMap Member.function?).find? (·.name == name)

def constants : List (String × Expr) := c.body.filterMap Member.constant?

/-- The functions that the bases provide; `call` calls what may replace them. -/
def inherited (message : Message) (call : String → List Value → Effect) (name : String)
    (values : List Value) (store : Store) : Option (Value × Store) :=
  match name, values with
  | "_mint", [.number _, .number id] => store.mint id
  | "_safeMint", [.number _, .number id] => store.mint id
  | "totalSupply", [] =>
    if "ERC721Enumerable" ∈ c.bases then some (.number store.tokens.length, store) else none
  | "owner", [] => some (.number store.owner, store)
  | "_owner", [] => some (.number store.owner, store)
  | "_msgSender", [] => some (.number message.sender, store)
  | "_baseURI", [] => some (store.fields "uriBase", store)
  | "tokenURI", [.number id] => do
    let (.text base, store) ← call "_baseURI" [] store | none
    return (.text (base ++ toString id), store)
  | _, _ => none

def scope (message : Message) (call : String → List Value → Effect) : Scope where
  message := message
  constants := c.constants
  call := call
  inherited := c.inherited message call

/-- Runs the body of a function. -/
def perform (message : Message) (call : String → List Value → Effect) (f : Function)
    (values : List Value) (store : Store) : Option (Value × Store) := do
  let locals ← bindArguments f.arguments values
  let (flow, store) ← Stmt.execAll (c.scope message call) f.body locals store
  return (flow.value, store)

/-- Calls a function of the contract or of a base; calls are nested less deep than `depth`. -/
def invoke (message : Message) : (depth : Nat) → String → List Value → Effect
  | 0, _, _, _ => none
  | depth + 1, name, values, store =>
    match c.function? name with
    | some f => c.perform message (invoke message depth) f values store
    | none => c.inherited message (invoke message depth) name values store

theorem invoke_of_function? {name : String} {f : Function} (found : c.function? name = some f)
    (message : Message) (depth : Nat) (values : List Value) (store : Store) :
    c.invoke message (depth + 1) name values store =
      c.perform message (c.invoke message depth) f values store := by
  rw [invoke, found]

/-- What the contract does not declare is answered by its bases. -/
theorem invoke_of_inherited {name : String} (missing : c.function? name = none)
    (message : Message) (depth : Nat) (values : List Value) (store : Store) :
    c.invoke message (depth + 1) name values store =
      c.inherited message (c.invoke message depth) name values store := by
  rw [invoke, missing]

/-- A call from outside, which brings the ether of the message. -/
def transact (message : Message) (name : String) (values : List Value) (store : Store) :
    Option (Value × Store) := do
  let f ← c.function? name
  if f.admits message store then
    c.invoke message callDepth name values { store with balance := store.balance + message.value }
  else none

end Contract

end Mintage.Solidity
