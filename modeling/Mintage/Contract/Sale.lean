import Mintage.Contract.Gate

/-! When the sale is open and how much each account may mint. -/
namespace Mintage.Plan

open Solidity

variable (p : Plan)

def saleIsActive : Expr := .ident "saleIsActive"

/-- The switches of the sale. -/
def activation : List Member := outline [
  .one (.banner "ACTIVATION"),
  .one (.fieldWith "bool" ["public"] "saleIsActive" (.bool p.startsActive)),
  .one (.setter "setSaleIsActive" "bool" "saleIsActive"),
  .all ((p.gate.map Gate.controls).getD [])]

def walletLimitName : String := "MINT_LIMIT_PER_WALLET"

def minted (account : Expr) : Expr := .index (.ident "mintCountMap") account

def allowed (account : Expr) : Expr := .index (.ident "allowedMintCountMap") account

def minter : Expr := .ident "minter"

/-- What is left of an allowance. -/
def remaining (allowance : Expr) : Stmt := .returns (.binary allowance "-" (minted minter))

/-- A wallet limit counts only while the sale is open, an allowance at all times. -/
def allowedMintCount : List Stmt :=
  match p.hasAllowlist, p.hasWalletLimit with
  | true, true => [
      .cond saleIsActive
        [remaining (.apply "max" [allowed minter, .ident walletLimitName])] none,
      remaining (allowed minter)]
  | true, false => [remaining (allowed minter)]
  | false, _ => [remaining (.ident walletLimitName)]

def maximum : Member :=
  .function "max" ["uint256 a", "uint256 b"] ["private", "pure"] (some "uint256")
    [.returns (.ident "a >= b ? a : b")]

/-- The accounts of what everybody may mint and has minted. -/
def allowlist : List Member :=
  if p.countsMints then outline [
    .one (.banner "ALLOWLIST"),
    .one (.field "mapping(address => uint256)" ["private"] "mintCountMap"),
    .one (.field "mapping(address => uint256)" ["private"] "allowedMintCountMap"),
    .optional (p.walletLimit.map (.constant walletLimitName)),
    .when (p.hasAllowlist && p.hasWalletLimit) maximum,
    .one (.function "allowedMintCount" ["address minter"] ["public", "view"] (some "uint256")
      p.allowedMintCount),
    .one (.function "updateMintCount" ["address minter", "uint256 count"] ["private"] none
      [.expr (.assign (minted minter) "+=" (.ident "count"))])]
  else []

/-- The allowances with which the contract starts. -/
def initialAllowances : List Stmt := outline [
  .when (p.ownerAllowance != 0) (.set (allowed p.owner) (.nat p.ownerAllowance)),
  .all (p.allowances.map fun a => .set (allowed (.ident a.1)) (.nat a.2))]

def requireSale : Stmt := .require saleIsActive "Sale not active"

/-- The checks of a caller who wants to mint `count` tokens. Who has an allowance may mint before
the sale is open. -/
def saleChecks (count : Expr) : List Stmt :=
  let withinAllowance := Expr.binary (.apply "allowedMintCount" [p.sender]) ">=" count
  let recordMint := Stmt.expr (.apply "updateMintCount" [p.sender, count])
  match p.hasAllowlist, p.hasWalletLimit with
  | false, false => [requireSale]
  | true, false => [.cond withinAllowance [recordMint] (some [requireSale])]
  | true, true => [
      .cond withinAllowance [recordMint] (some [.expr (.apply "revert"
        [.ident "saleIsActive ? \"Minting limit exceeded\" : \"Sale not active\""])])]
  | false, true => [requireSale, .require withinAllowance "Minting limit exceeded", recordMint]

end Mintage.Plan
