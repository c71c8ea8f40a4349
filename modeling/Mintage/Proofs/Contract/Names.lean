import Mathlib.Tactic.Tauto
import Mintage.Proofs.Contract.Members
import Mintage.Proofs.Execution.History
import Mintage.Proofs.Text.Plain
import Mintage.Solidity.OneLine

/-! The names in a file: those of its contracts and of what it imports, and those of the members of
its main contract. -/
namespace Mintage

open Solidity

namespace Solidity

def Item.contract? : Item → Option Contract
  | .contract c => some c
  | .comment _ => none

/-- The contracts of a file, in their order. -/
def Program.contracts (p : Program) : List Contract := p.body.filterMap Item.contract?

/-- The library or interface in a file has the name of the file. -/
def importedName (path : String) : String :=
  String.ofList (((Text.pieces (· == '/') path.toList).getLast?.getD []).takeWhile (· != '.'))

/-- The last contract of a file has a name that neither its bases nor other contracts of the file
nor what the file imports have. -/
structure Program.StandsApart (p : Program) (c : Contract) : Prop where
  last : p.contracts.getLast? = some c
  bases : c.name ∉ c.bases
  contracts : c.name ∉ p.contracts.dropLast.map Contract.name
  imports : c.name ∉ p.imports.map importedName

/-- What stands behind the sign of equality changes the value of a variable only. -/
theorem Variable.ofLine_assigned {head : String} (unassigned : "=" ∉ Text.words head)
    (value : String) :
    Variable.ofLine (head ++ " = " ++ value) =
      { Variable.ofLine head with value := some (.ofWord (Text.spaced (Text.words value))) } := by
  have words : Text.words (head ++ " = " ++ value) =
      Text.words head ++ "=" :: Text.words value := by
    have sign : head ++ " = " ++ value = head ++ " " ++ "=" ++ " " ++ value := by
      simp [String.append_assoc]
    rw [sign, Text.words_append_space, Text.words_append_space, List.append_assoc]
    rfl
  have front : ∀ word ∈ Text.words head, (word != "=") = true := by
    intro word mem
    simpa using ne_of_mem_of_not_mem mem unassigned
  have before (rest : List String) : (Text.words head ++ rest).takeWhile (· != "=") =
      Text.words head ++ rest.takeWhile (· != "=") := List.takeWhile_append_of_pos front
  have behind (rest : List String) : (Text.words head ++ rest).dropWhile (· != "=") =
      rest.dropWhile (· != "=") := List.dropWhile_append_of_pos front
  have whole := before []
  rw [List.append_nil] at whole
  rw [ofLine, ofLine, words, before, behind, whole]
  simp

end Solidity

theorem words_payoutName (front : String) (number : Nat) :
    Text.words (front ++ " " ++ payoutName number) = Text.words front ++ [payoutName number] := by
  have plain : Text.isPlainText (payoutName number) = true :=
    Text.isPlainText_append (by decide) (Text.isPlainText_toString number)
  have word : Text.isWord (payoutName number) = true := by
    rw [Text.isWord, plain]
    simp [payoutName]
  rw [Text.words_append_space, Text.words_of_isWord word]

/-- The constant of a receiver is the one of its line. -/
theorem Share.constant?_destination (number : Nat) (address : String) (percentage : Nat) :
    Share.constant? ⟨.destination number address, percentage⟩ =
      some (.declaration (.field (.ofLine
        ("address private constant " ++ payoutName number ++ " = " ++ address)))) := by
  have words : Text.words ("address private constant " ++ payoutName number) =
      ["address", "private", "constant", payoutName number] :=
    words_payoutName "address private constant" number
  have rest : Text.words (" private constant " ++ payoutName number) =
      ["private", "constant", payoutName number] :=
    words_payoutName " private constant" number
  have other : payoutName number ≠ "=" := by
    intro same
    simpa [payoutName] using congrArg (fun text => text.toList.head?) same
  have head : ["address", "private", "constant", payoutName number].takeWhile (· != "=") =
      ["address", "private", "constant", payoutName number] := by
    simp [other]
  have type : cutType (Text.spaced ["address", "private", "constant", payoutName number]).toList =
      ("address".toList, (" private constant " ++ payoutName number).toList) := by
    simp [Text.spaced, cutType]
  rw [Variable.ofLine_assigned (by simp [words, other.symm])]
  simp only [Variable.ofLine, words, head, type, String.ofList_toList, rest]
  rfl

namespace Plan

variable (p : Plan)

theorem contracts_program : p.program.contracts = p.registryContracts ++ [p.contract] := by
  have registry : (p.registryContracts.map Item.contract).filterMap Item.contract? =
      p.registryContracts := by
    rw [List.filterMap_map]
    exact List.filterMap_some
  simp only [Program.contracts, program, outline_cons, outline_nil, List.filterMap_append,
    Part.filterMap_all, registry]
  rfl

theorem getLast?_contracts : p.program.contracts.getLast? = some p.contract := by
  rw [contracts_program, List.getLast?_concat]

theorem names_registryContracts : p.registryContracts.map Contract.name =
    if p.hasRegistry then ["OwnableDelegateProxy", "ProxyRegistry"] else [] := by
  unfold registryContracts
  split <;> rfl

/-- What a plan imports, by name. -/
theorem names_imports : p.program.imports.map importedName = outline [
    .one p.foundation.contract,
    .when p.countsSupply "Counters",
    .one "ReentrancyGuard",
    .when (!p.isDelegated) "Ownable",
    .when p.gate.isSome "IERC721",
    .when (p.ownRoyalty.isSome && !p.isDelegated) "IERC2981",
    .when p.needsStrings "Strings",
    .when p.earns "Address"] := by
  have foundation : importedName (Dependencies.foundationFile p.foundation) =
      p.foundation.contract := by
    cases p.foundation <;> decide +kernel
  have files : ["utils/Counters", "security/ReentrancyGuard", "access/Ownable",
      "token/ERC721/IERC721", "interfaces/IERC2981", "utils/Strings", "utils/Address"].map
        (importedName ∘ Dependencies.openZeppelin) =
      ["Counters", "ReentrancyGuard", "Ownable", "IERC721", "IERC2981", "Strings", "Address"] := by
    decide +kernel
  simp only [List.map_cons, List.map_nil, Function.comp_apply, List.cons.injEq, and_true] at files
  simp only [program, Dependencies.imports, dependencies, outline_cons, outline_nil,
    List.map_append, List.map_nil, Part.map_one, Part.map_when, foundation, files]
  rfl

/-- Of all sections, one has a constructor. -/
theorem constructors_body : p.body.filterMap Member.constructor? = [p.constructor] := by
  have parameters : p.parameterSection.filterMap Member.constructor? = [] := by
    unfold parameterSection
    split <;> rfl
  have allowlist : p.allowlist.filterMap Member.constructor? = [] := by
    unfold Plan.allowlist countsMints hasWalletLimit
    cases p.hasAllowlist <;> cases p.walletLimit <;> rfl
  have minting : p.minting.filterMap Member.constructor? = [] := by
    unfold Plan.minting
    cases p.gate <;> cases p.supply <;> cases p.tokenIdLimit <;> cases p.price <;>
      cases p.batch <;> cases p.countsSupply <;> rfl
  have activation : p.activation.filterMap Member.constructor? = [] := by
    unfold Plan.activation
    rcases p.gate with - | ⟨_ | _, _ | _⟩ <;> rfl
  have uris : p.uriSection.filterMap Member.constructor? = [] := by
    unfold uriSection
    cases p.isDelegated <;> cases p.storesUris <;> cases p.overridesUri <;> cases p.contractUri <;>
      rfl
  have receivers : (p.shares.filterMap Share.constant?).filterMap Member.constructor? = [] := by
    rw [List.filterMap_filterMap, List.filterMap_eq_nil_iff]
    rintro ⟨_ | _, _⟩ - <;> rfl
  have payout : p.payout.filterMap Member.constructor? = [] := by
    unfold Plan.payout
    split
    · simp only [outline_cons, outline_nil, List.filterMap_append, Part.filterMap_all, receivers]
      rfl
    · rfl
  have royalties : p.royaltySection.filterMap Member.constructor? = [] := by
    unfold royaltySection
    split <;> rfl
  have registry : p.registrySection.filterMap Member.constructor? = [] := by
    unfold registrySection
    split <;> rfl
  have attached : (Part.items (.when p.countsSupply
      (.declaration (.attach "Counters" "Counters.Counter")))).filterMap Member.constructor? =
        [] := by
    cases p.countsSupply <;> rfl
  simp only [body, outline_cons, outline_nil, List.filterMap_append, Part.filterMap_all,
    Part.filterMap_one, attached, parameters, allowlist, minting, activation, uris, payout,
    royalties, registry]
  rfl

end Plan

namespace Settings

variable (s : Settings)

/-- The names that a source takes: those of the bases, of the contracts in front of the main one,
and of what it imports. -/
def takenNames : List String := outline [
  .one (Foundation.choose s.delegated s.enumerable).contract,
  .one "ReentrancyGuard",
  .when (!s.delegated) "Ownable",
  .when (s.delegated || !s.enumerable) "Counters",
  .when s.gate.isSet "IERC721",
  .when (s.royalty?.isSome && !s.delegated) "IERC2981",
  .when s.plan.needsStrings "Strings",
  .when s.earns "Address",
  .all (if s.usesRegistry then ["OwnableDelegateProxy", "ProxyRegistry"] else [])]

/-- The main contract has a name of its own unless the title spells one that is taken. -/
theorem standsApart_iff :
    s.program.StandsApart s.plan.contract ↔ Text.contractName s.tokenName ∉ s.takenNames := by
  have last : s.program.contracts.getLast? = some s.plan.contract := s.plan.getLast?_contracts
  have others : s.program.contracts.dropLast.map Contract.name =
      if s.usesRegistry then ["OwnableDelegateProxy", "ProxyRegistry"] else [] := by
    rw [program, Plan.contracts_program, List.dropLast_concat]
    exact s.plan.names_registryContracts
  have taken (name : String) : name ∉ s.takenNames ↔ name ∉ s.plan.contract.bases ∧
      name ∉ s.program.contracts.dropLast.map Contract.name ∧
      name ∉ s.program.imports.map importedName := by
    rw [others, program, Plan.names_imports]
    have foundation : s.plan.foundation = .choose s.delegated s.enumerable := rfl
    simp only [takenNames, Plan.contract, Plan.bases, foundation, Bool.and_assoc, Bool.and_self,
      s.isDelegated_plan, s.countsSupply_plan, s.isSome_gate_plan, s.isSome_ownRoyalty_plan,
      s.earns_plan, outline_cons, outline_nil, List.append_nil, List.mem_append, Part.mem_one,
      Part.mem_when, Part.mem_all, not_or]
    tauto
  rw [taken]
  constructor
  · intro apart
    exact ⟨apart.bases, apart.contracts, apart.imports⟩
  · rintro ⟨bases, contracts, imports⟩
    exact ⟨last, bases, contracts, imports⟩

/-- A title whose legal characters are the name of the base contract. -/
def sampleNamesake : Settings := { blank with tokenName := "ERC-721" }

theorem not_standsApart_sampleNamesake :
    sampleNamesake.program.contracts.getLast? = some sampleNamesake.plan.contract ∧
      sampleNamesake.plan.contract.name ∈ sampleNamesake.plan.contract.bases ∧
      sampleNamesake.plan.contract.name ∈ sampleNamesake.program.imports.map importedName ∧
      ¬ sampleNamesake.program.StandsApart sampleNamesake.plan.contract := by
  have inherited : sampleNamesake.plan.contract.name ∈ sampleNamesake.plan.contract.bases := by
    decide
  exact ⟨Plan.getLast?_contracts _, inherited, by decide +kernel,
    fun apart => apart.bases inherited⟩

/-- A main contract declares every name once and has one constructor. The constants of receivers
are among its members as their lines say, whatever stands behind the sign of equality. -/
theorem declares_once :
    s.program.contracts.getLast? = some s.plan.contract ∧
      s.plan.contract.declared.Nodup ∧
      s.plan.contract.body.filterMap Member.constructor? = [s.plan.constructor] ∧
      ∀ number address percentage, ⟨.destination number address, percentage⟩ ∈ s.plan.shares →
        .declaration (.field (.ofLine
          ("address private constant " ++ payoutName number ++ " = " ++ address))) ∈
            s.plan.contract.body := by
  refine ⟨s.plan.getLast?_contracts, s.declared_nodup, s.plan.constructors_body, ?_⟩
  intro number address percentage mem
  have earns : s.plan.earns = true := by
    rw [earns_plan]
    by_contra idle
    simp [plan, idle] at mem
  have constant : Member.declaration (.field (.ofLine
      ("address private constant " ++ payoutName number ++ " = " ++ address))) ∈
        s.plan.shares.filterMap Share.constant? :=
    List.mem_filterMap.2 ⟨_, mem, Share.constant?_destination number address percentage⟩
  simp [Plan.contract, Plan.body, Plan.payout, earns, constant]

/-- A contract with a receiver whose address reads as a further declaration. -/
def sampleReceiver : Settings where
  __ := blank
  price := some "0.1"
  payouts := [⟨"0xA1; uint256 constant PRICE = 1", 60⟩]

theorem declares_sampleReceiver :
    ⟨.destination 1 "0xA1; uint256 constant PRICE = 1", 60⟩ ∈ sampleReceiver.plan.shares ∧
      "payoutAddress1" ∈ sampleReceiver.plan.contract.declared ∧
      sampleReceiver.plan.contract.declared.Nodup := by
  have own : ⟨.destination 1 "0xA1; uint256 constant PRICE = 1", 60⟩ ∈
      sampleReceiver.plan.shares := by
    decide +kernel
  obtain ⟨-, distinct, -, constants⟩ := sampleReceiver.declares_once
  exact ⟨own, List.mem_filterMap.2 ⟨_, constants _ _ _ own, by decide +kernel⟩, distinct⟩

end Settings

end Mintage
