import Mintage.Settings.AddressBook

/-! The settings from which a contract is written. -/
namespace Mintage

inductive ValueType where
  | uint8
  | uint16
  | uint32
  | uint64
  | uint128
  | uint256
  | bool
  | address
  | bytes32
  | string
  deriving DecidableEq, Repr

namespace ValueType

def all : List ValueType :=
  [uint8, uint16, uint32, uint64, uint128, uint256, bool, address, bytes32, string]

def name : ValueType → String
  | uint8 => "uint8"
  | uint16 => "uint16"
  | uint32 => "uint32"
  | uint64 => "uint64"
  | uint128 => "uint128"
  | uint256 => "uint256"
  | bool => "bool"
  | address => "address"
  | bytes32 => "bytes32"
  | string => "string"

def ofName? (name : String) : Option ValueType := all.find? (·.name == name)

theorem ofName?_name (type : ValueType) : ofName? type.name = some type := by
  cases type <;> decide

end ValueType

/-- A value that is stored with every token. -/
structure Parameter where
  name : String
  type : ValueType
  deriving DecidableEq, Repr

/-- A receiver of a part of the proceeds. -/
structure Payout where
  address : String
  percentage : UInt32
  deriving DecidableEq, Repr

/-- A number of tokens that an account may mint before the sale. -/
structure Allowance where
  address : String
  count : UInt32
  deriving DecidableEq, Repr

structure Settings where
  tokenName : String
  symbol : String
  supply : Option UInt64
  /-- The most tokens that one call mints. -/
  batchLimit : Option UInt32
  walletLimit : Option UInt32
  tokenIdLimit : Option UInt64
  /-- The price of a token in ether, a decimal number. -/
  price : Option String
  /-- The royalty in percent, a decimal number. -/
  royalty : Option String
  tokenUri : String
  contractUri : Option String
  startsActive : Bool
  enumerable : Bool
  onlyOwnerMints : Bool
  /-- Whether a contract that is deployed elsewhere does the work of the base contract. -/
  delegated : Bool
  minterPicksIds : Bool
  storesUris : Bool
  gateSwitches : Bool
  gateMoves : Bool
  parameters : List Parameter
  /-- The contract of which a minter has to own a token. -/
  gate : AddressBook
  /-- The registry whose proxies may move all tokens. -/
  registry : AddressBook
  payouts : List Payout
  allowances : List Allowance
  ownerAllowance : UInt32

namespace Settings

def sampleTokenUri : String := "https://example.com/\x7btokenId\x7d"

def blank : Settings where
  tokenName := ""
  symbol := ""
  supply := none
  batchLimit := none
  walletLimit := none
  tokenIdLimit := none
  price := none
  royalty := none
  tokenUri := sampleTokenUri
  contractUri := none
  startsActive := false
  enumerable := false
  onlyOwnerMints := false
  delegated := false
  minterPicksIds := false
  storesUris := false
  gateSwitches := false
  gateMoves := false
  parameters := []
  gate := .empty
  registry := .empty
  payouts := []
  allowances := []
  ownerAllowance := 0

instance : Inhabited Settings := ⟨blank⟩

end Settings

end Mintage
