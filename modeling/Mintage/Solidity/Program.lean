import Mintage.Solidity.Stmt

/-! Declarations, contracts and source files. -/
namespace Mintage.Solidity

structure Function where
  name : String
  arguments : List String
  modifiers : List String
  result : Option String
  body : List Stmt
  deriving Repr, BEq

structure Constructor where
  arguments : List String
  base : Option Expr
  body : List Stmt
  deriving Repr, BEq

inductive Declaration where
  | field (v : Variable)
  | function (f : Function)
  | constructor (c : Constructor)
  | record (name : String) (members : List Variable)
  | attach (library type : String)
  deriving Repr, BEq

inductive Comment where
  | banner (title : String)
  | note (text : String)
  deriving Repr, BEq

inductive Member where
  | declaration (d : Declaration)
  | comment (c : Comment)
  deriving Repr, BEq

structure Contract where
  name : String
  bases : List String
  body : List Member
  deriving Repr, BEq

inductive Item where
  | contract (c : Contract)
  | comment (c : Comment)
  deriving Repr, BEq

structure Program where
  license : Option String
  pragma : Option String
  imports : List String
  body : List Item
  deriving Repr, BEq

namespace Member

def banner (title : String) : Member := comment (.banner title)

/-- A variable of the contract with no value of its own. -/
def field (type : String) (modifiers : List String) (name : String) : Member :=
  declaration (.field ⟨type, modifiers, name, none⟩)

def fieldWith (type : String) (modifiers : List String) (name : String) (value : Expr) : Member :=
  declaration (.field ⟨type, modifiers, name, some value⟩)

/-- A public constant of the contract. -/
def constant (name : String) (value : Nat) : Member :=
  fieldWith "uint256" ["public", "constant"] name (.nat value)

def function (name : String) (arguments modifiers : List String) (result : Option String)
    (body : List Stmt) : Member :=
  declaration (.function ⟨name, arguments, modifiers, result, body⟩)

/-- The function by which the owner sets a variable. -/
def setter (name type target : String) : Member :=
  function name [type ++ " " ++ target ++ "_"] ["external", "onlyOwner"] none
    [.set (.ident target) (.ident (target ++ "_"))]

end Member

end Mintage.Solidity
