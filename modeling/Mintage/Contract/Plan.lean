import Mintage.Settings.Derived
import Mintage.Settings.Shares
import Mintage.Solidity.Expr
import Mintage.Template.Uri
import Mintage.Text.Name

/-! The plan of a contract: what the settings amount to. Settings without effect leave no trace in
it. -/
namespace Mintage

/-- The base contract: one that is deployed elsewhere, one that lists its tokens, or the plain
one. -/
inductive Foundation where
  | plain
  | enumerable
  | delegated
  deriving DecidableEq, Repr

/-- The contract whose tokens minters have to own; the owner may be able to switch the rule off
and to name another contract. -/
structure Gate where
  switches : Bool
  moves : Bool
  deriving DecidableEq, Repr

structure Price where
  wei : Nat
  /-- The price in ether as it was set. -/
  text : String
  deriving DecidableEq, Repr

/-- The address of a token behind the base that the contract stores. -/
inductive UriShape where
  /-- All tokens share the base. -/
  | fixed
  /-- The number of the token, and the query of its parameters if there are any. -/
  | standard (query : Bool)
  | custom (rest : List Template.Token)
  deriving DecidableEq, Repr

structure Plan where
  title : String
  symbol : String
  foundation : Foundation
  supply : Option Nat
  /-- The most tokens that one call mints, where it may mint several. -/
  batch : Option Nat
  minterPicksIds : Bool
  /-- The bound of the token numbers, where it is not the supply. -/
  tokenIdLimit : Option Nat
  price : Option Price
  /-- The royalty in basis points. -/
  royalty : Option Nat
  onlyOwnerMints : Bool
  gate : Option Gate
  ownerAllowance : Nat
  allowances : List (String × Nat)
  walletLimit : Option Nat
  startsActive : Bool
  hasRegistry : Bool
  parameters : List Parameter
  uriShape : UriShape
  uriBase : String
  storesUris : Bool
  contractUri : Option String
  /-- The shares of the proceeds; there are none if the contract cannot receive ether. -/
  shares : List Share

namespace Foundation

/-- A delegated contract cannot list its tokens. -/
def choose (delegated enumerable : Bool) : Foundation :=
  if delegated then .delegated else if enumerable then .enumerable else .plain

def isDelegated (f : Foundation) : Bool := f == .delegated

/-- Whether the base contract counts the tokens. -/
def countsTokens (f : Foundation) : Bool := f == .enumerable

def contract : Foundation → String
  | plain => "ERC721"
  | enumerable => "ERC721Enumerable"
  | delegated => "ERC721Delegated"

end Foundation

namespace UriShape

open Template

/-- The shape of a list of tokens with a slot, without the text at its start. -/
def ofTokens (hasParameters : Bool) (tokens : List Token) : UriShape :=
  if tokens = [.slot tokenIdSlot] then .standard false
  else if tokens = [.slot tokenIdSlot, .slot parametersSlot] then .standard hasParameters
  else .custom tokens

def isSlot : Token → Bool
  | .slot _ => true
  | .text _ => false

/-- The tokens behind the text at the start. -/
def dropBase : List Token → List Token
  | .text _ :: rest => rest
  | tokens => tokens

/-- A template that is refused has the standard shape. -/
def ofTemplate (template : String) (hasParameters : Bool) : UriShape :=
  match parseUri template with
  | .error _ => .standard false
  | .ok tokens =>
    if tokens.any isSlot then ofTokens hasParameters (dropBase tokens) else .fixed

end UriShape

namespace Settings

variable (s : Settings)

def gate? : Option Gate := if s.gate.isSet then some ⟨s.gateSwitches, s.gateMoves⟩ else none

def plan : Plan where
  title := s.tokenName
  symbol := s.symbol
  foundation := .choose s.delegated s.enumerable
  supply := s.supply.map UInt64.toNat
  batch := s.batch?
  minterPicksIds := s.minterPicksIds
  tokenIdLimit := s.ownTokenIdLimit?
  price := s.price?.map fun wei => ⟨wei, s.priceText?.getD ""⟩
  royalty := s.royalty?
  onlyOwnerMints := s.onlyOwnerMints
  gate := s.gate?
  ownerAllowance := s.ownerAllowance.toNat
  allowances := s.allowances.map fun a => (Text.trim a.address, a.count.toNat)
  walletLimit := s.walletLimit.map UInt32.toNat
  startsActive := s.startsActive
  hasRegistry := s.usesRegistry
  parameters := s.parameters
  uriShape := .ofTemplate s.tokenUri (!s.parameters.isEmpty)
  uriBase := Template.leading s.tokenUri
  storesUris := s.storesUris
  contractUri := s.contractUri?
  shares := if s.earns then s.shares else []

end Settings

namespace Plan

open Solidity

variable (p : Plan)

def contractName : String := Text.contractName p.title

def isDelegated : Bool := p.foundation.isDelegated

/-- Whether the contract counts its tokens itself. -/
def countsSupply : Bool := !p.foundation.countsTokens

def hasAllowlist : Bool := p.ownerAllowance != 0 || !p.allowances.isEmpty

def hasWalletLimit : Bool := p.walletLimit.isSome

/-- Whether the contract counts what each account has minted. -/
def countsMints : Bool := p.hasAllowlist || p.hasWalletLimit

def hasParameters : Bool := !p.parameters.isEmpty

def mintsSeveral : Bool := p.batch.isSome

/-- The contract can receive ether from sales or from royalties. -/
def earns : Bool := p.price.isSome || p.royalty.isSome

/-- The royalty that the contract itself answers for; a delegated one tells it to its base. -/
def ownRoyalty : Option Nat := if p.isDelegated then none else p.royalty

/-- The account that owns the contract. -/
def owner : Expr := .apply (if p.isDelegated then "_owner" else "owner") []

/-- The account that calls the contract. -/
def sender : Expr := if p.isDelegated then .apply "_msgSender" [] else .ident "msg.sender"

def mint (account tokenId : Expr) : Expr :=
  .apply (if p.isDelegated then "_mint" else "_safeMint") [account, tokenId]

end Plan

end Mintage
