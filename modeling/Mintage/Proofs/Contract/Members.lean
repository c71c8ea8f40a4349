import Mintage.Contract.Assembly
import Mintage.Proofs.Execution.Call
import Mintage.Proofs.Outline
import Mathlib.Data.List.Nodup

/-! The names that a planned contract declares: all of them once, so that each finds its member. -/
namespace Mintage

open Solidity

namespace Settings

variable (s : Settings)

theorem isDelegated_plan : s.plan.isDelegated = s.delegated := by
  simp only [plan, Plan.isDelegated, Foundation.choose]
  cases s.delegated <;> cases s.enumerable <;> rfl

/-- Only an enumerable contract that does not delegate leaves the counting to its base. -/
theorem countsSupply_plan : s.plan.countsSupply = (s.delegated || !s.enumerable) := by
  simp only [plan, Plan.countsSupply, Foundation.choose]
  cases s.delegated <;> cases s.enumerable <;> rfl

theorem isSome_gate_plan : s.plan.gate.isSome = s.gate.isSet := by
  simp only [plan, gate?]
  cases s.gate.isSet <;> rfl

theorem isSome_ownRoyalty_plan :
    s.plan.ownRoyalty.isSome = (s.royalty?.isSome && !s.delegated) := by
  rw [Plan.ownRoyalty, isDelegated_plan]
  cases s.delegated <;> simp [plan]

theorem earns_plan : s.plan.earns = s.earns := by
  simp [Plan.earns, earns, plan]

end Settings

namespace Solidity.Member

@[simp] theorem name?_comment (comment : Comment) : (Member.comment comment).name? = none := rfl

@[simp] theorem name?_variable (v : Variable) :
    (declaration (.field v)).name? = some v.name := rfl

@[simp] theorem name?_declared (f : Function) :
    (declaration (.function f)).name? = some f.name := rfl

@[simp] theorem name?_record (name : String) (members : List Variable) :
    (declaration (.record name members)).name? = some name := rfl

@[simp] theorem name?_constructor (c : Constructor) :
    (declaration (.constructor c)).name? = none := rfl

@[simp] theorem name?_attach (library type : String) :
    (declaration (.attach library type)).name? = none := rfl

end Solidity.Member

namespace Plan

variable (p : Plan)

/-- The names of the constants that hold the addresses of receivers. -/
def payoutNames : List String := (p.shares.filterMap Share.constant?).filterMap Member.name?

def names : List (Part String) := [
  .when p.hasParameters "TokenParameters",
  .when p.hasParameters "tokenParametersMap",
  .when p.hasParameters "tokenParameters",
  .when p.countsMints "mintCountMap",
  .when p.countsMints "allowedMintCountMap",
  .when p.hasWalletLimit "MINT_LIMIT_PER_WALLET",
  .when (p.hasAllowlist && p.hasWalletLimit) "max",
  .when p.countsMints "allowedMintCount",
  .when p.countsMints "updateMintCount",
  .when p.gate.isSome "accessToken",
  .when p.supply.isSome "MAX_SUPPLY",
  .when p.tokenIdLimit.isSome "MAX_TOKEN_ID",
  .when p.price.isSome "PRICE",
  .when p.batch.isSome "MAX_MULTIMINT",
  .when p.countsSupply "supplyCounter",
  .one "mint",
  .when p.countsSupply "totalSupply",
  .one "saleIsActive",
  .one "setSaleIsActive",
  .when (p.gate.any (·.switches)) "accessTokenIsActive",
  .when (p.gate.any (·.switches)) "setAccessTokenIsActive",
  .when (p.gate.any (·.moves)) "setAccessTokenAddress",
  .when (!p.isDelegated) "customBaseURI",
  .when (!p.isDelegated) "setBaseURI",
  .when (!p.isDelegated) "_baseURI",
  .when p.storesUris "tokenURIMap",
  .when p.storesUris "setTokenURI",
  .when p.overridesUri "tokenURI",
  .when p.contractUri.isSome "customContractURI",
  .when p.contractUri.isSome "setContractURI",
  .when p.contractUri.isSome "contractURI",
  .all (if p.earns then p.payoutNames else []),
  .when p.earns "withdraw",
  .when p.ownRoyalty.isSome "royaltyInfo",
  .when p.ownRoyalty.isSome "supportsInterface",
  .when p.hasRegistry "proxyRegistryAddress",
  .when p.hasRegistry "isApprovedForAll"]

theorem declared_parameterSection : p.parameterSection.filterMap Member.name? =
    if p.hasParameters then ["TokenParameters", "tokenParametersMap", "tokenParameters"]
    else [] := by
  unfold parameterSection
  cases p.hasParameters <;> rfl

theorem declared_allowlist : p.allowlist.filterMap Member.name? = outline [
    .when p.countsMints "mintCountMap",
    .when p.countsMints "allowedMintCountMap",
    .when p.hasWalletLimit "MINT_LIMIT_PER_WALLET",
    .when (p.hasAllowlist && p.hasWalletLimit) "max",
    .when p.countsMints "allowedMintCount",
    .when p.countsMints "updateMintCount"] := by
  unfold allowlist countsMints hasWalletLimit
  cases p.hasAllowlist <;> cases p.walletLimit <;> rfl

/-- The section on minting declares each constant under the condition under which it has a value. -/
theorem declared_minting : p.minting.filterMap Member.name? = outline [
    .when p.gate.isSome "accessToken",
    .when p.supply.isSome "MAX_SUPPLY",
    .when p.tokenIdLimit.isSome "MAX_TOKEN_ID",
    .when p.price.isSome "PRICE",
    .when p.batch.isSome "MAX_MULTIMINT",
    .when p.countsSupply "supplyCounter",
    .one "mint",
    .when p.countsSupply "totalSupply"] := by
  unfold minting
  cases p.gate <;> cases p.supply <;> cases p.tokenIdLimit <;> cases p.price <;>
    cases p.batch <;> cases p.countsSupply <;> rfl

theorem declared_activation : p.activation.filterMap Member.name? = outline [
    .one "saleIsActive",
    .one "setSaleIsActive",
    .when (p.gate.any (·.switches)) "accessTokenIsActive",
    .when (p.gate.any (·.switches)) "setAccessTokenIsActive",
    .when (p.gate.any (·.moves)) "setAccessTokenAddress"] := by
  unfold activation
  cases p.gate with
  | none => rfl
  | some gate =>
    obtain ⟨switches, moves⟩ := gate
    cases switches <;> cases moves <;> rfl

theorem declared_uriSection : p.uriSection.filterMap Member.name? = outline [
    .when (!p.isDelegated) "customBaseURI",
    .when (!p.isDelegated) "setBaseURI",
    .when (!p.isDelegated) "_baseURI",
    .when p.storesUris "tokenURIMap",
    .when p.storesUris "setTokenURI",
    .when p.overridesUri "tokenURI",
    .when p.contractUri.isSome "customContractURI",
    .when p.contractUri.isSome "setContractURI",
    .when p.contractUri.isSome "contractURI"] := by
  unfold uriSection
  cases p.isDelegated <;> cases p.storesUris <;> cases p.overridesUri <;> cases p.contractUri <;>
    rfl

theorem declared_payout : p.payout.filterMap Member.name? = outline [
    .all (if p.earns then p.payoutNames else []),
    .when p.earns "withdraw"] := by
  unfold payout payoutNames
  cases p.earns
  · rfl
  · simp [List.filterMap_cons, Member.banner, Member.function, Part.items]

theorem declared_royaltySection : p.royaltySection.filterMap Member.name? = outline [
    .when p.ownRoyalty.isSome "royaltyInfo",
    .when p.ownRoyalty.isSome "supportsInterface"] := by
  unfold royaltySection
  cases p.ownRoyalty <;> rfl

theorem declared_registrySection : p.registrySection.filterMap Member.name? = outline [
    .when p.hasRegistry "proxyRegistryAddress",
    .when p.hasRegistry "isApprovedForAll"] := by
  unfold registrySection
  cases p.hasRegistry <;> rfl

/-- Section by section, a contract declares these names in this order. -/
theorem declared_contract : p.contract.declared = outline p.names := by
  have none : (Part.items (.when p.countsSupply
      (.declaration (.attach "Counters" "Counters.Counter")))).filterMap Member.name? = [] := by
    cases p.countsSupply <;> rfl
  simp only [Contract.declared, contract, body, outline_cons, List.filterMap_append, none,
    Part.filterMap_one, Part.filterMap_all, Member.name?_constructor, Option.toList_none,
    declared_parameterSection, declared_allowlist, declared_minting, declared_activation,
    declared_uriSection, declared_payout, declared_royaltySection, declared_registrySection, names,
    outline_nil, List.nil_append, List.append_nil, List.append_assoc]
  cases p.hasParameters <;> rfl

end Plan

/-- The number of a receiver that is not the owner. -/
def Share.number? (share : Share) : Option Nat :=
  match share.recipient with
  | .destination number _ => some number
  | .owner => none

/-- The number can be read off the name of a receiver. -/
theorem payoutName_injective : Function.Injective payoutName := by
  intro a b same
  have digits : Nat.toDigits 10 a = Nat.toDigits 10 b := by
    simpa [payoutName] using congrArg String.toList same
  simpa using congrArg (Nat.ofDigitChars 10 · 0) digits

/-- Receivers are numbered one after the other, without a gap. -/
theorem numbers_sharesOf (number left : Nat) (payouts : List Payout) :
    ∃ count, (sharesOf number left payouts).filterMap Share.number? = List.range' number count := by
  induction payouts generalizing number left with
  | nil =>
    refine ⟨0, ?_⟩
    unfold sharesOf
    split <;> rfl
  | cons payout payouts ih =>
    simp only [sharesOf]
    split
    · exact ih number left
    · obtain ⟨count, later⟩ := ih (number + 1) (left - min payout.percentage.toNat left)
      exact ⟨count + 1, by simp [Share.number?, later, List.range'_succ]⟩

namespace Plan

variable (p : Plan)

theorem payoutNames_eq_map :
    p.payoutNames = (p.shares.filterMap Share.number?).map payoutName := by
  unfold payoutNames
  rw [List.filterMap_filterMap, List.map_filterMap]
  congr 1
  funext share
  obtain ⟨recipient, percentage⟩ := share
  cases recipient <;> rfl

end Plan

/-- No two receivers share a constant. -/
theorem Settings.payoutNames_nodup (s : Settings) : s.plan.payoutNames.Nodup := by
  rw [Plan.payoutNames_eq_map]
  refine List.Nodup.map payoutName_injective ?_
  simp only [plan]
  split
  · obtain ⟨count, numbers⟩ := numbers_sharesOf 1 100 s.payouts
    rw [Settings.shares, numbers]
    exact List.nodup_range'
  · exact List.nodup_nil

namespace Plan

variable (p : Plan)

/-- The names that a contract declares before those of the receivers. -/
def earlyNames : List String := [
  "TokenParameters", "tokenParametersMap", "tokenParameters", "mintCountMap",
  "allowedMintCountMap", "MINT_LIMIT_PER_WALLET", "max", "allowedMintCount", "updateMintCount",
  "accessToken", "MAX_SUPPLY", "MAX_TOKEN_ID", "PRICE", "MAX_MULTIMINT", "supplyCounter", "mint",
  "totalSupply", "saleIsActive", "setSaleIsActive", "accessTokenIsActive",
  "setAccessTokenIsActive", "setAccessTokenAddress", "customBaseURI", "setBaseURI", "_baseURI",
  "tokenURIMap", "setTokenURI", "tokenURI", "customContractURI", "setContractURI", "contractURI"]

/-- The names that a contract declares behind those of the receivers. -/
def lateNames : List String :=
  ["withdraw", "royaltyInfo", "supportsInterface", "proxyRegistryAddress", "isApprovedForAll"]

/-- Whatever the settings, the names are among these, in this order. -/
theorem declared_sublist :
    p.contract.declared.Sublist
      (earlyNames ++ ((if p.earns then p.payoutNames else []) ++ lateNames)) := by
  rw [declared_contract]
  exact outline_sublist p.names

theorem payoutName_notMem (number : Nat) : payoutName number ∉ earlyNames ++ lateNames := by
  have other : ∀ name ∈ earlyNames ++ lateNames, ¬ "payoutAddress".toList <+: name.toList := by
    decide
  intro mem
  refine other _ mem ⟨(toString number).toList, ?_⟩
  simp [payoutName]

end Plan

/-- A planned contract declares no name twice. -/
theorem Settings.declared_nodup (s : Settings) : s.plan.contract.declared.Nodup := by
  have fixed : (Plan.earlyNames ++ Plan.lateNames).Nodup := by decide
  have receivers : (if s.plan.earns then s.plan.payoutNames else []).Nodup := by
    split
    · exact s.payoutNames_nodup
    · exact List.nodup_nil
  have apart (name : String) (mem : name ∈ if s.plan.earns then s.plan.payoutNames else []) :
      name ∉ Plan.earlyNames ++ Plan.lateNames := by
    split at mem
    · rw [Plan.payoutNames_eq_map] at mem
      obtain ⟨number, -, rfl⟩ := List.mem_map.1 mem
      exact Plan.payoutName_notMem number
    · cases mem
  refine s.plan.declared_sublist.nodup ?_
  rw [List.nodup_append] at fixed ⊢
  refine ⟨fixed.1, List.nodup_append.2 ⟨receivers, fixed.2.1, ?_⟩, ?_⟩
  · rintro a memA b memB rfl
    exact apart a memA (List.mem_append_right _ memB)
  · intro a memA b memB same
    rcases List.mem_append.1 memB with memB | memB
    · exact apart b memB (List.mem_append_left _ (same ▸ memA))
    · exact fixed.2.2 a memA b memB same

section

variable {s : Settings} {m n : Member} {name : String}

theorem Settings.member_unique (memM : m ∈ s.plan.contract.body) (memN : n ∈ s.plan.contract.body)
    (nameM : m.name? = some name) (nameN : n.name? = some name) : m = n :=
  eq_of_nodup_filterMap s.declared_nodup memM memN nameM nameN

/-- A function that a contract declares is found under its name. -/
theorem Settings.function?_of_mem {f : Function}
    (mem : .declaration (.function f) ∈ s.plan.contract.body) :
    s.plan.contract.function? f.name = some f := by
  have listed : f ∈ s.plan.contract.body.filterMap Member.function? :=
    List.mem_filterMap.2 ⟨_, mem, rfl⟩
  cases found : s.plan.contract.function? f.name with
  | none => simpa using List.find?_eq_none.1 found f listed
  | some g =>
    have named : g.name = f.name := by simpa using List.find?_some found
    obtain ⟨m, memM, built⟩ := List.mem_filterMap.1 (List.mem_of_find?_eq_some found)
    have shape : m = .declaration (.function g) := by
      unfold Member.function? at built
      split at built
      · cases built; rfl
      · cases built
    subst shape
    have same := s.member_unique memM mem (congrArg some named) rfl
    cases same
    rfl

theorem Settings.function?_eq_none (undeclared : name ∉ s.plan.contract.declared) :
    s.plan.contract.function? name = none := by
  refine List.find?_eq_none.2 fun f listed named => undeclared ?_
  obtain ⟨m, memM, built⟩ := List.mem_filterMap.1 listed
  refine List.mem_filterMap.2 ⟨m, memM, ?_⟩
  unfold Member.function? at built
  split at built
  · cases built
    simpa using named
  · cases built

/-- The field from which a constant is read. -/
theorem Settings.field_of_constant {e : Expr} (mem : (name, e) ∈ s.plan.contract.constants) :
    ∃ v : Variable, .declaration (.field v) ∈ s.plan.contract.body ∧ v.name = name ∧
      "constant" ∈ v.modifiers ∧ v.value = some e := by
  obtain ⟨m, memM, built⟩ := List.mem_filterMap.1 mem
  unfold Member.constant? at built
  split at built
  · rename_i v
    split at built
    · rename_i isConstant
      obtain ⟨value, held, same⟩ := Option.map_eq_some_iff.1 built
      cases same
      exact ⟨v, memM, rfl, by simpa using isConstant, held⟩
    · cases built
  · cases built

/-- A constant that a contract declares is found under its name. -/
theorem Settings.constant_of_mem {v : Variable} {e : Expr}
    (mem : .declaration (.field v) ∈ s.plan.contract.body) (isConstant : "constant" ∈ v.modifiers)
    (value : v.value = some e) : s.plan.contract.constants.lookup v.name = some e := by
  have listed : (v.name, e) ∈ s.plan.contract.constants :=
    List.mem_filterMap.2 ⟨_, mem, by simp [Member.constant?, isConstant, value]⟩
  cases found : s.plan.contract.constants.lookup v.name with
  | none => simpa using List.lookup_eq_none_iff.1 found _ listed
  | some e' =>
    obtain ⟨before, after, split, -⟩ := List.lookup_eq_some_iff.1 found
    have listed' : (v.name, e') ∈ s.plan.contract.constants := by rw [split]; simp
    obtain ⟨v', mem', named, -, value'⟩ := s.field_of_constant listed'
    have same := s.member_unique mem' mem (congrArg some named) rfl
    cases same
    rw [value] at value'
    exact value'.symm

/-- A variable is not found among the constants. -/
theorem Settings.constant_eq_none_of_mem {v : Variable}
    (mem : .declaration (.field v) ∈ s.plan.contract.body) (varies : "constant" ∉ v.modifiers) :
    s.plan.contract.constants.lookup v.name = none := by
  refine List.lookup_eq_none_iff.2 fun entry listed => ?_
  obtain ⟨v', mem', named, isConstant, -⟩ := s.field_of_constant listed
  have other : v.name ≠ entry.1 := by
    intro same
    have unique := s.member_unique mem' mem (congrArg some (named.trans same.symm)) rfl
    cases unique
    exact varies isConstant
  simpa using other

end

end Mintage
