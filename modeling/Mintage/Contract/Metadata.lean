import Mintage.Contract.Plan
import Mintage.Outline
import Mintage.Solidity.Program

/-! What a contract tells about its tokens: their parameters and addresses. -/
namespace Mintage

open Solidity Template

namespace Parameter

def record : String := "TokenParameters"

def map : String := "tokenParametersMap"

/-- The argument for the parameters of the new tokens. -/
def argument : String := record ++ " calldata parameters"

/-- The parameters of a token. -/
def stored (tokenId : Expr) : Expr := .index (.ident map) tokenId

end Parameter

def toText (value : Expr) : Expr := (Expr.ident "Strings").method "toString" [value]

def toHexText (value : Expr) (bytes : Nat) : Expr :=
  (Expr.ident "Strings").method "toHexString" [value, .nat bytes]

/-- The value of a parameter as a text. -/
def Parameter.text (parameter : Parameter) : Expr :=
  let field := "parameters." ++ parameter.name
  match parameter.type with
  | .string => .ident field
  | .bool => .ident (field ++ " ? string(\"true\") : string(\"false\")")
  | .address => toHexText (.ident ("uint256(uint160(" ++ field ++ "))")) 20
  | .bytes32 => toHexText (.ident ("uint256(" ++ field ++ ")")) 32
  | _ => toText (.ident field)

namespace Plan

variable (p : Plan)

def tokenId : Expr := .ident "tokenId"

/-- The record of the parameters of every token. -/
def parameterSection : List Member :=
  if p.hasParameters then [
    .banner "PARAMETERS",
    .declaration (.record Parameter.record
      (p.parameters.map fun parameter => ⟨parameter.type.name, [], parameter.name, none⟩)),
    .field ("mapping(uint256 => " ++ Parameter.record ++ ")") ["private"] Parameter.map,
    .function "tokenParameters" ["uint256 tokenId"] ["external", "view"]
      (some (Parameter.record ++ " memory")) [.returns (Parameter.stored tokenId)]]
  else []

/-- Whether the contract has a function of its own for the addresses. The base contract knows
those that are the base and the number. -/
def overridesUri : Bool :=
  p.storesUris ||
    match p.uriShape with
    | .standard query => query
    | _ => true

/-- Whether a token of a template needs a number as a text. -/
def needsText : Token → Bool
  | .text _ => false
  | .slot name => name == tokenIdSlot || p.parameters.any (·.type != .string)

/-- Whether the addresses need numbers as texts. A delegated contract cannot leave the standard
shape to its base. -/
def needsStrings : Bool :=
  p.overridesUri &&
    match p.uriShape with
    | .fixed => false
    | .standard query => query || p.isDelegated
    | .custom rest => rest.any p.needsText

/-- Whether the addresses need the parameters of the token. -/
def readsParameters : Bool :=
  match p.uriShape with
  | .fixed => false
  | .standard query => query
  | .custom rest => p.hasParameters && rest.contains (.slot parametersSlot)

/-- A delegated contract has its base written into it. -/
def baseUri : Expr := if p.isDelegated then .string p.uriBase else .apply "_baseURI" []

/-- The query of the parameters, piece by piece. -/
def queryTexts : List Expr :=
  ((queryKeys (p.parameters.map (·.name))).zip p.parameters).flatMap fun entry =>
    [.string entry.1, entry.2.text]

/-- The pieces that a token of a template stands for. -/
def tokenTexts : Token → List Expr
  | .text s => [.string s]
  | .slot name => if name = tokenIdSlot then [toText tokenId] else p.queryTexts

/-- The pieces one after the other. -/
def packed (pieces : List Expr) : Expr :=
  .apply "string" [(Expr.ident "abi").method "encodePacked" pieces]

/-- The address of a token. -/
def uriOf : Expr :=
  match p.uriShape with
  | .fixed => p.baseUri
  | .standard false =>
    if p.isDelegated then packed [p.baseUri, toText tokenId]
    else (Expr.ident "super").method "tokenURI" [tokenId]
  | .standard true => packed (p.baseUri :: toText tokenId :: p.queryTexts)
  | .custom rest => packed (p.baseUri :: rest.flatMap p.tokenTexts)

def storedUri : Expr := .index (.ident "tokenURIMap") tokenId

/-- The address of a token; one that is stored for it goes first. -/
def uriBody : List Stmt := outline [
  .when p.storesUris (.declare "string memory" "storedURI" storedUri),
  .when p.storesUris
    (.cond (.binary ((Expr.apply "bytes" [.ident "storedURI"]).member "length") ">" (.nat 0))
      [.returns (.ident "storedURI")] none),
  .when p.readsParameters
    (.declare (Parameter.record ++ " memory") "parameters" (Parameter.stored tokenId)),
  .one (.returns p.uriOf)]

def uriFunction : Member :=
  .function "tokenURI" ["uint256 tokenId"]
    (["public", "view"] ++ if p.isDelegated then [] else ["override"]) (some "string memory")
    p.uriBody

/-- The base of the addresses, which the owner may change. -/
def baseUriMembers : List Member := [
  .field "string" ["private"] "customBaseURI",
  .setter "setBaseURI" "string memory" "customBaseURI",
  .function "_baseURI" [] ["internal", "view", "virtual", "override"] (some "string memory")
    [.returns (.ident "customBaseURI")]]

def storedUriMembers : List Member := [
  .field "mapping(uint256 => string)" ["private"] "tokenURIMap",
  .function "setTokenURI" ["uint256 tokenId", "string memory tokenURI_"]
    ["external", "onlyOwner"] none [.set storedUri (.ident "tokenURI_")]]

/-- The address of the description of the contract itself. -/
def contractUriMembers (uri : String) : List Member := [
  .fieldWith "string" ["private"] "customContractURI" (.string uri),
  .setter "setContractURI" "string memory" "customContractURI",
  .function "contractURI" [] ["public", "view"] (some "string memory")
    [.returns (.ident "customContractURI")]]

def uriSection : List Member := outline [
  .one (.banner "URI HANDLING"),
  .all (if p.isDelegated then [] else baseUriMembers),
  .all (if p.storesUris then storedUriMembers else []),
  .when p.overridesUri p.uriFunction,
  .all ((p.contractUri.map contractUriMembers).getD [])]

end Plan

end Mintage
