import Mintage.Decimal
import Mintage.Settings.Basic
import Mintage.Text.Blank

/-! What the settings say about the contract. -/
namespace Mintage

/-- Whether some network has an address. -/
def AddressBook.isSet (book : AddressBook) : Bool :=
  book.entries.any fun entry => !(Text.trim entry.2).isEmpty

namespace Settings

variable (s : Settings)

/-- A delegated contract has no registry of its own. -/
def usesRegistry : Bool := !s.delegated && s.registry.isSet

/-- The most tokens that one call mints, where it may mint several. -/
def batch? : Option Nat := (s.batchLimit.map UInt32.toNat).filter (1 < ·)

/-- The bound of the token numbers, where minters pick them and it is not the supply. -/
def ownTokenIdLimit? : Option Nat :=
  if s.minterPicksIds && s.tokenIdLimit != s.supply then s.tokenIdLimit.map UInt64.toNat
  else none

def priceText? : Option String := Text.content? s.price

def royaltyText? : Option String := Text.content? s.royalty

/-- Ether has eighteen places. -/
def readPrice? (text : String) : Option Nat := Decimal.read? 18 text

/-- The price of a token in wei, unless minting is free. -/
def price? : Option Nat := (s.priceText?.bind readPrice?).filter (0 < ·)

/-- A hundred percent in basis points. -/
def wholeRoyalty : Nat := 10000

/-- The royalty in basis points, if it is a percentage above zero with at most two places. -/
def royalty? : Option Nat :=
  (s.royaltyText?.bind (Decimal.read? 2)).filter fun points => 0 < points ∧ points ≤ wholeRoyalty

/-- The contract can receive ether from sales or from royalties. -/
def earns : Bool := s.price?.isSome || s.royalty?.isSome

def contractUri? : Option String := Text.content? s.contractUri

def parameterNames : List String := s.parameters.map (·.name)

end Settings

end Mintage
