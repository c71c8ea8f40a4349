/-! Expressions of the contract language. -/
namespace Mintage.Solidity

/-- An identifier may also be a piece of source that is kept as it is written. -/
inductive Expr where
  | ident (name : String)
  | number (digits : String)
  | string (value : String)
  | bool (value : Bool)
  | member (object : Expr) (name : String)
  | index (object key : Expr)
  | call (callee : Expr) (arguments : List Expr)
  | callNamed (callee : Expr) (arguments : List (String × Expr))
  | assign (target : Expr) (operator : String) (value : Expr)
  | binary (left : Expr) (operator : String) (right : Expr)
  deriving Repr, BEq

namespace Expr

instance : Inhabited Expr := ⟨ident ""⟩

def nat (n : Nat) : Expr := number (toString n)

/-- The call of a function that has a name. -/
def apply (function : String) (arguments : List Expr) : Expr := call (ident function) arguments

/-- The call of a member of an object. -/
def method (object : Expr) (name : String) (arguments : List Expr) : Expr :=
  call (member object name) arguments

/-- Expressions in parentheses, such as a return of several values. -/
def tuple (elements : List Expr) : Expr := apply "" elements

def set (target value : Expr) : Expr := assign target "=" value

/-- Whether the expression needs parentheses as an operand. -/
def isCompound : Expr → Bool
  | assign .. => true
  | binary .. => true
  | _ => false

def isCall : Expr → Bool
  | call .. => true
  | callNamed .. => true
  | _ => false

end Expr

end Mintage.Solidity
