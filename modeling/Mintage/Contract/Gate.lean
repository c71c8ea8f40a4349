import Mintage.Contract.Plan
import Mintage.Outline
import Mintage.Solidity.Program

/-! The rule that a minter owns a token of another contract. -/
namespace Mintage.Gate

open Solidity

def token : Expr := .ident "accessToken"

def isActive : String := "accessTokenIsActive"

def addressArgument : String := "accessTokenAddress_"

def field (g : Gate) : Member :=
  .field "IERC721" (if g.moves then ["public"] else ["public", "immutable"]) "accessToken"

/-- Takes the contract from the address that is an argument. -/
def assignment : Stmt := .set token (.apply "IERC721" [.ident addressArgument])

/-- A check that counts only while the rule is switched on. -/
def guarded (g : Gate) (check : Stmt) : Stmt :=
  if g.switches then .cond (.ident isActive) [check] none else check

def refusal : String := "Access token not owned"

def ownsSome (g : Gate) (account : Expr) : Stmt :=
  g.guarded (.require (.binary (token.method "balanceOf" [account]) ">" (.nat 0)) refusal)

/-- The number of the token is that of the new one. -/
def ownsThis (g : Gate) (account tokenId : Expr) : Stmt :=
  g.guarded (.require (.binary (token.method "ownerOf" [tokenId]) "==" account) refusal)

/-- What the owner needs to switch the rule and to name another contract. -/
def controls (g : Gate) : List Member := outline [
  .when g.switches (.fieldWith "bool" ["public"] isActive (.bool true)),
  .when g.switches (.setter "setAccessTokenIsActive" "bool" isActive),
  .when g.moves (.function "setAccessTokenAddress" ["address " ++ addressArgument]
    ["external", "onlyOwner"] none [assignment])]

end Mintage.Gate
