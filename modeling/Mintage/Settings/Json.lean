import Mintage.Json.Record
import Mintage.Settings.Basic

/-! Settings as JSON text. -/
namespace Mintage

open Json

def ValueType.codec : Codec ValueType := .choice ValueType.name ValueType.ofName?

namespace AddressBook

def write (book : AddressBook) : List Char :=
  Codec.object (book.entries.map fun entry => Codec.writeMember entry.1 (writeString entry.2))

def readEntry (book : AddressBook) (network : String) : Reader AddressBook := fun cs => do
  let (address, rest) ← Codec.text.read (← colon cs)
  .ok (book.insert network address, rest)

def codec : Codec AddressBook where
  write := write
  read cs :=
    match dropSpace cs with
    | '{' :: rest => Codec.readMembers readEntry ('{' :: rest) true empty rest
    | rest => .error (refuse rest)

end AddressBook

def Parameter.codec : Codec Parameter := .record ⟨"", .bool⟩ [
  .must "name" .text (·.name) fun v p => { p with name := v },
  .must "type" ValueType.codec (·.type) fun v p => { p with type := v }]

def Payout.codec : Codec Payout := .record ⟨"", 0⟩ [
  .must "address" .text (·.address) fun v p => { p with address := v },
  .must "percentage" .word32 (·.percentage) fun v p => { p with percentage := v }]

def Allowance.codec : Codec Allowance := .record ⟨"", 0⟩ [
  .must "address" .text (·.address) fun v a => { a with address := v },
  .must "count" .word32 (·.count) fun v a => { a with count := v }]

namespace Settings

/-- The fields in the order in which they are written. -/
def fields : List (RecordField Settings) := [
  .may "tokenName" .text (·.tokenName) fun v s => { s with tokenName := v },
  .may "shortName" .text (·.symbol) fun v s => { s with symbol := v },
  .may "supply" (.optional .word64) (·.supply) fun v s => { s with supply := v },
  .may "multimint" (.optional .word32) (·.batchLimit) fun v s => { s with batchLimit := v },
  .may "limitPerWallet" (.optional .word32) (·.walletLimit) fun v s => { s with walletLimit := v },
  .may "customMaxTokenId" (.optional .word64) (·.tokenIdLimit)
    fun v s => { s with tokenIdLimit := v },
  .may "price" (.optional .text) (·.price) fun v s => { s with price := v },
  .may "royaltyBps" (.optional .text) (·.royalty) fun v s => { s with royalty := v },
  .may "tokenUri" .text (·.tokenUri) fun v s => { s with tokenUri := v },
  .may "contractUri" (.optional .text) (·.contractUri) fun v s => { s with contractUri := v },
  .may "activateAutomatically" .flag (·.startsActive) fun v s => { s with startsActive := v },
  .may "enumerable" .flag (·.enumerable) fun v s => { s with enumerable := v },
  .may "onlyOwnerCanMint" .flag (·.onlyOwnerMints) fun v s => { s with onlyOwnerMints := v },
  .may "delegatedContract" .flag (·.delegated) fun v s => { s with delegated := v },
  .may "usesIdParameter" .flag (·.minterPicksIds) fun v s => { s with minterPicksIds := v },
  .may "usesUriStorage" .flag (·.storesUris) fun v s => { s with storesUris := v },
  .may "toggleAccessToken" .flag (·.gateSwitches) fun v s => { s with gateSwitches := v },
  .may "mutableAccessToken" .flag (·.gateMoves) fun v s => { s with gateMoves := v },
  .may "tokenParameters" (.list Parameter.codec) (·.parameters)
    fun v s => { s with parameters := v },
  .may "requireAccessToken" AddressBook.codec (·.gate) fun v s => { s with gate := v },
  .may "approvalProxyAddress" AddressBook.codec (·.registry) fun v s => { s with registry := v },
  .may "payoutDestinations" (.list Payout.codec) (·.payouts) fun v s => { s with payouts := v },
  .may "allowlistDestinations" (.list Allowance.codec) (·.allowances)
    fun v s => { s with allowances := v },
  .may "amountAllowedForOwner" .word32 (·.ownerAllowance) fun v s => { s with ownerAllowance := v }]

def codec : Codec Settings := .record blank fields

def parse (text : String) : Except Fault Settings := codec.parse text

def print (s : Settings) : String := codec.print s

end Settings

end Mintage
