import Mintage.Contract.Metadata
import Mintage.Contract.Sale

/-! The function that mints tokens. -/
namespace Mintage.Plan

open Solidity

variable (p : Plan)

def counter : Expr := .ident "supplyCounter"

def totalSupply : Expr := .apply "totalSupply" []

/-- The number of tokens that a call mints. -/
def mintCount : Expr := if p.mintsSeveral then .ident "count" else .nat 1

/-- The checks of the number of tokens; the number of picked tokens is counted first. -/
def batchChecks : List Stmt :=
  match p.batch with
  | none => []
  | some limit => outline [
      .when p.minterPicksIds (.declare "uint256" "count" ((Expr.ident "ids").member "length")),
      .one (.require (.binary (.ident "count") "<=" (.ident "MAX_MULTIMINT"))
        ("Mint at most " ++ toString limit ++ " at a time"))]

def supplyCheck : Stmt :=
  .require
    (if p.mintsSeveral then
      .binary (.binary totalSupply "+" p.mintCount) "<=" (.ident "MAX_SUPPLY")
    else .binary totalSupply "<" (.ident "MAX_SUPPLY"))
    "Exceeds max supply"

def paymentCheck (price : Price) : Stmt :=
  .require
    (.binary (.ident "msg.value") ">="
      (if p.mintsSeveral then .binary (.ident "PRICE") "*" p.mintCount else .ident "PRICE"))
    ("Insufficient payment, " ++ price.text ++ " ETH per item")

/-- The constant that bounds the numbers that minters pick. -/
def tokenIdBound : Option String :=
  if p.tokenIdLimit.isSome then some "MAX_TOKEN_ID"
  else if p.supply.isSome then some "MAX_SUPPLY"
  else none

def storeParameters (tokenId : Expr) : List Stmt :=
  if p.hasParameters then [.set (Parameter.stored tokenId) (.ident "parameters")] else []

def countToken : List Stmt :=
  if p.countsSupply then [.expr (counter.method "increment" [])] else []

/-- Mints a token whose number the minter has picked. -/
def mintPicked : List Stmt :=
  let id := Expr.ident "id"
  outline [
    .when p.mintsSeveral (.declare "uint256" "id" (.index (.ident "ids") (.ident "i"))),
    .optional (p.gate.map fun gate => gate.ownsThis p.sender id),
    .optional (p.tokenIdBound.map fun bound =>
      .require (.binary id "<" (.ident bound)) "Invalid token id"),
    .all (p.storeParameters id),
    .one (.expr (p.mint p.sender id)),
    .all p.countToken]

/-- Mints the token that comes next. -/
def mintNext : List Stmt := outline [
  .all (p.storeParameters totalSupply),
  .one (.expr (p.mint p.sender totalSupply)),
  .all p.countToken]

def mintOne : List Stmt := if p.minterPicksIds then p.mintPicked else p.mintNext

def mintBody : List Stmt := outline [
  .all p.batchChecks,
  .all (if p.onlyOwnerMints then [] else p.saleChecks p.mintCount),
  .optional (if p.minterPicksIds then none else p.gate.map fun gate => gate.ownsSome p.sender),
  .optional (p.supply.map fun _ => p.supplyCheck),
  .optional (p.price.map p.paymentCheck),
  .all (if p.mintsSeveral then [.loop "uint256 i = 0" "i < count" "i++" p.mintOne]
    else p.mintOne)]

def mintArguments : List String := outline [
  .optional (match p.minterPicksIds, p.mintsSeveral with
    | true, true => some "uint256[] calldata ids"
    | true, false => some "uint256 id"
    | false, true => some "uint256 count"
    | false, false => none),
  .when p.hasParameters Parameter.argument]

def mintModifiers : List String := outline [
  .one "public",
  .when p.price.isSome "payable",
  .one "nonReentrant",
  .when p.onlyOwnerMints "onlyOwner"]

def minting : List Member := outline [
  .one (.banner "MINTING"),
  .optional (p.gate.map Gate.field),
  .optional (p.supply.map (.constant "MAX_SUPPLY")),
  .optional (p.tokenIdLimit.map (.constant "MAX_TOKEN_ID")),
  .optional (p.price.map fun price => .constant "PRICE" price.wei),
  .optional (p.batch.map (.constant "MAX_MULTIMINT")),
  .when p.countsSupply (.field "Counters.Counter" ["private"] "supplyCounter"),
  .one (.function "mint" p.mintArguments p.mintModifiers none p.mintBody),
  .when p.countsSupply (.function "totalSupply" [] ["public", "view"] (some "uint256")
    [.returns (counter.method "current" [])])]

end Mintage.Plan
