import Mintage.Contract.Plan
import Mintage.Outline
import Mintage.Solidity.Program
import Mintage.Solidity.OneLine

/-! Where the ether goes: shares of the balance, and royalties of later sales. -/
namespace Mintage

open Solidity

/-- The constant that holds the address of a receiver. -/
def payoutName (number : Nat) : String := "payoutAddress" ++ toString number

/-- The contract itself. -/
def thisContract : Expr := .apply "address" [.ident "this"]

/-- The ether that the contract has at the moment. -/
def currentBalance : Expr := thisContract.member "balance"

namespace Share

def constant? (share : Share) : Option Member :=
  match share.recipient with
  | .destination number address =>
    some (.fieldWith "address" ["private", "constant"] (payoutName number)
      (.ofWord (Text.spaced (Text.words address))))
  | .owner => none

def account (owner : Expr) (share : Share) : Expr :=
  match share.recipient with
  | .destination number _ => .ident (payoutName number)
  | .owner => owner

/-- The whole balance needs no rounding, and the last share takes what the others have left. -/
def amount (share : Share) (isLast : Bool) : Expr :=
  if share.percentage = 100 then .ident "balance"
  else if isLast then currentBalance
  else .binary (.binary (.ident "balance") "*" (.nat share.percentage)) "/" (.nat 100)

def send (owner : Expr) (share : Share) (isLast : Bool) : Stmt :=
  .expr ((Expr.ident "Address").method "sendValue"
    [.apply "payable" [share.account owner], share.amount isLast])

/-- Sends the shares in their order. -/
def sendAll (owner : Expr) : List Share → List Stmt
  | [] => []
  | share :: shares => share.send owner shares.isEmpty :: sendAll owner shares

end Share

namespace Plan

variable (p : Plan)

def withdrawBody : List Stmt :=
  .declare "uint256" "balance" currentBalance :: Share.sendAll p.owner p.shares

def payout : List Member :=
  if p.earns then outline [
    .one (.banner "PAYOUT"),
    .all (p.shares.filterMap Share.constant?),
    .one (.function "withdraw" [] ["public", "nonReentrant"] none p.withdrawBody)]
  else []

def royaltySection : List Member :=
  match p.ownRoyalty with
  | none => []
  | some points => [
      .banner "ROYALTIES",
      .function "royaltyInfo" ["uint256", "uint256 salePrice"] ["external", "view", "override"]
        (some "address receiver, uint256 royaltyAmount")
        [.returns (.tuple [thisContract,
          .binary (.binary (.ident "salePrice") "*" (.nat points)) "/"
            (.nat Settings.wholeRoyalty)])],
      .function "supportsInterface" ["bytes4 interfaceId"]
        ["public", "view", "virtual", "override(" ++ p.foundation.contract ++ ", IERC165)"]
        (some "bool")
        [.returns (.binary
          (.binary (.ident "interfaceId") "=="
            ((Expr.apply "type" [.ident "IERC2981"]).member "interfaceId"))
          "||"
          ((Expr.ident "super").method "supportsInterface" [.ident "interfaceId"]))]]

end Plan

end Mintage
