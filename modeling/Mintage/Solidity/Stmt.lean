import Mintage.Solidity.Expr

/-! Variables and statements of the contract language. -/
namespace Mintage.Solidity

structure Variable where
  type : String
  modifiers : List String
  name : String
  value : Option Expr
  deriving Repr, BEq

/-- A loop keeps its three clauses as they are written. An empty alternative is not an absent
one. -/
inductive Stmt where
  | expr (e : Expr)
  | decl (v : Variable)
  | ret (value : Option Expr)
  | cond (test : Expr) (body : List Stmt) (alternative : Option (List Stmt))
  | loop (start test step : String) (body : List Stmt)
  deriving Repr, BEq

namespace Stmt

instance : Inhabited Stmt := ⟨ret none⟩

/-- A variable of a function with its first value. -/
def declare (type name : String) (value : Expr) : Stmt := decl ⟨type, [], name, some value⟩

def set (target value : Expr) : Stmt := expr (target.set value)

def returns (value : Expr) : Stmt := ret (some value)

def require (test : Expr) (message : String) : Stmt :=
  expr (.apply "require" [test, .string message])

def isCond : Stmt → Bool
  | cond .. => true
  | _ => false

end Stmt

end Mintage.Solidity
