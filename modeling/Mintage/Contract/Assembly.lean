import Mintage.Contract.Inheritance
import Mintage.Contract.Minting
import Mintage.Contract.Proceeds
import Mintage.Contract.Registry
import Mintage.Solidity.Print

/-! The whole source file of a contract. -/
namespace Mintage

open Solidity

namespace Product

def name : String := "sol721"

def version : String := "0.1.0"

/-- The last line of every file. -/
def attribution : String := "Contract created with " ++ name ++ " v" ++ version

end Product

namespace Plan

variable (p : Plan)

/-- The constructor of the base that the constructor calls. -/
def baseConstructor : Expr :=
  if p.isDelegated then
    .apply p.foundation.contract [.ident "baseFactory", .string p.title, .string p.symbol,
      .callNamed (.ident "ConfigSettings") [
        ("royaltyBps", .nat (p.royalty.getD 0)),
        ("uriBase", .ident "customBaseURI_"),
        ("uriExtension", .string ""),
        ("hasTransferHook", .bool false)]]
  else .apply "ERC721" [.string p.title, .string p.symbol]

def constructor : Constructor where
  arguments := outline [
    .when p.isDelegated "address baseFactory",
    .when p.gate.isSome ("address " ++ Gate.addressArgument),
    .when p.hasRegistry ("address " ++ registryArgument),
    .one "string memory customBaseURI_"]
  base := some p.baseConstructor
  body := outline [
    .when (!p.isDelegated) (.set (.ident "customBaseURI") (.ident "customBaseURI_")),
    .when p.gate.isSome Gate.assignment,
    .when p.hasRegistry registryAssignment,
    .all p.initialAllowances]

def body : List Member := outline [
  .when p.countsSupply (.declaration (.attach "Counters" "Counters.Counter")),
  .one (.declaration (.constructor p.constructor)),
  .all p.parameterSection,
  .all p.allowlist,
  .all p.minting,
  .all p.activation,
  .all p.uriSection,
  .all p.payout,
  .all p.royaltySection,
  .all p.registrySection]

def contract : Contract := ⟨p.contractName, p.bases, p.body⟩

def license : String := "MIT"

/-- The versions of the compiler that are accepted. -/
def compiler : String := "^0.8.9"

def program : Program where
  license := some license
  pragma := some compiler
  imports := p.dependencies.imports
  body := outline [
    .all (p.registryContracts.map .contract),
    .one (.contract p.contract),
    .one (.comment (.note Product.attribution))]

end Plan

namespace Settings

def program (s : Settings) : Program := s.plan.program

/-- The source of the contract that the settings describe. -/
def source (s : Settings) : String := s.program.print

end Settings

end Mintage
