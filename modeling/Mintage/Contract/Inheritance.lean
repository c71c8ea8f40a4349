import Mintage.Contract.Metadata
import Mintage.Outline

/-! The contracts on which a contract builds, and the files that hold them. -/
namespace Mintage

/-- The features for which other files are needed. -/
structure Dependencies where
  foundation : Foundation
  counter : Bool
  gate : Bool
  royalties : Bool
  strings : Bool
  transfers : Bool
  deriving DecidableEq, Repr

namespace Dependencies

def openZeppelin (path : String) : String := "@openzeppelin/contracts/" ++ path ++ ".sol"

def foundationFile : Foundation → String
  | .plain => openZeppelin "token/ERC721/ERC721"
  | .enumerable => openZeppelin "token/ERC721/extensions/ERC721Enumerable"
  | .delegated => "gwei-slim-nft-contracts/contracts/base/ERC721Delegated.sol"

/-- The files to import. A delegated contract has an owner and royalties by its base. -/
def imports (d : Dependencies) : List String :=
  let isOwn := !d.foundation.isDelegated
  outline [
    .one (foundationFile d.foundation),
    .when d.counter (openZeppelin "utils/Counters"),
    .one (openZeppelin "security/ReentrancyGuard"),
    .when isOwn (openZeppelin "access/Ownable"),
    .when d.gate (openZeppelin "token/ERC721/IERC721"),
    .when (d.royalties && isOwn) (openZeppelin "interfaces/IERC2981"),
    .when d.strings (openZeppelin "utils/Strings"),
    .when d.transfers (openZeppelin "utils/Address")]

end Dependencies

namespace Plan

variable (p : Plan)

def dependencies : Dependencies where
  foundation := p.foundation
  counter := p.countsSupply
  gate := p.gate.isSome
  royalties := p.ownRoyalty.isSome
  strings := p.needsStrings
  transfers := p.earns

def bases : List String := outline [
  .one p.foundation.contract,
  .when p.ownRoyalty.isSome "IERC2981",
  .one "ReentrancyGuard",
  .when (!p.isDelegated) "Ownable"]

end Plan

end Mintage
