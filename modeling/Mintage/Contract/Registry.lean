import Mintage.Contract.Plan
import Mintage.Solidity.Program

/-! The registry of a marketplace, whose proxies may move the tokens of their owners. -/
namespace Mintage.Plan

open Solidity

variable (p : Plan)

def registryArgument : String := "proxyRegistryAddress_"

def registryAssignment : Stmt :=
  .set (.ident "proxyRegistryAddress") (.ident registryArgument)

/-- The contracts of the marketplace, as far as they are called. -/
def registryContracts : List Contract :=
  if p.hasRegistry then [
    ⟨"OwnableDelegateProxy", [], []⟩,
    ⟨"ProxyRegistry", [],
      [.field "mapping(address => OwnableDelegateProxy)" ["public"] "proxies"]⟩]
  else []

def registrySection : List Member :=
  if p.hasRegistry then
    let owner := Expr.ident "owner"
    let operator := Expr.ident "operator"
    [.banner "PROXY REGISTRY",
      .field "address" ["private", "immutable"] "proxyRegistryAddress",
      .function "isApprovedForAll" ["address owner", "address operator"]
        ["public", "view", "override"] (some "bool")
        [.declare "ProxyRegistry" "proxyRegistry" (.ident "ProxyRegistry(proxyRegistryAddress)"),
          .cond (.binary
              (.apply "address" [(Expr.ident "proxyRegistry").method "proxies" [owner]])
              "==" operator)
            [.returns (.bool true)] none,
          .returns ((Expr.ident "super").method "isApprovedForAll" [owner, operator])]]
  else []

end Mintage.Plan
