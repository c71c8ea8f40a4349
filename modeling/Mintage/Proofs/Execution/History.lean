import Mintage.Proofs.Execution.Call

/-! The life of a contract: it is deployed, then tokens are minted and the sale is switched. -/
namespace Mintage.Solidity

namespace Member

def constructor? : Member → Option Constructor
  | declaration (.constructor c) => some c
  | _ => none

/-- A variable that is not a constant, with its first value. -/
def initial? : Member → Option (String × Value)
  | declaration (.field v) =>
    if v.modifiers.contains "constant" then none
    else (v.value.bind Expr.literal?).map (v.name, ·)
  | _ => none

/-- The name of a map from accounts to numbers. -/
def tally? : Member → Option String
  | declaration (.field v) => if v.type = "mapping(address => uint256)" then some v.name else none
  | _ => none

end Member

namespace Contract

variable (c : Contract)

/-- A store before the constructor has run: no tokens, nothing counted, and every variable has its
first value. The names that are no variables stand for any values, as addresses do. -/
structure Fresh (store : Store) : Prop where
  tokens : store.tokens = []
  counters : ∀ name, store.counters name = 0
  fields : ∀ entry ∈ c.body.filterMap Member.initial?, store.fields entry.1 = entry.2
  entries : ∀ map ∈ c.body.filterMap Member.tally?, ∀ key, store.entries map key = .number 0

/-- Runs the constructor. -/
def deploy (message : Message) (values : List Value) (store : Store) : Option Store := do
  let k ← (c.body.filterMap Member.constructor?).head?
  let locals ← bindArguments k.arguments values
  let (_, store) ← Stmt.execAll (c.scope message (c.invoke message callDepth)) k.body locals store
  return store

/-- The stores that a contract can have, with the number of tokens that every account has minted.
Calls that fail leave both as they are. -/
inductive History : Store → (Nat → Nat) → Prop where
  | deployed {start store : Store} (message : Message) (values : List Value)
    (fresh : c.Fresh start) (built : c.deploy message values start = some store) :
    History store fun _ => 0
  | mint {store store' : Store} {minted : Nat → Nat} (message : Message) (values : List Value)
    (value : Value) (past : History store minted)
    (called : c.transact message "mint" values store = some (value, store')) :
    History store' fun account =>
      minted account +
        if account = message.sender then store'.tokens.length - store.tokens.length else 0
  | switchSale {store store' : Store} {minted : Nat → Nat} (message : Message)
    (values : List Value) (value : Value) (past : History store minted)
    (called : c.transact message "setSaleIsActive" values store = some (value, store')) :
    History store' minted

end Contract

end Mintage.Solidity
