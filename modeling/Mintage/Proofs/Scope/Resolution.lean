import Mintage.Proofs.Scope.Metadata
import Mintage.Proofs.Scope.Minting
import Mintage.Proofs.Text.Plain

/-! Whatever the settings, a contract has every name that its sections use. -/
namespace Mintage

open Solidity

theorem isShared_payoutName (number : Nat) : isShared (payoutName number) = true := by
  have starts : "payoutAddress".toList.isPrefixOf (payoutName number).toList = true := by
    rw [List.isPrefixOf_iff_prefix, payoutName, String.toList_append]
    exact List.prefix_append _ _
  rw [isShared, starts, Bool.or_true]

theorem isName_payoutName (number : Nat) : Text.isName (payoutName number) = true := by
  have digits := Text.all_continuesName_toString number
  have first : ("ayoutAddress".toList.all Text.continuesName) = true := by decide
  have chars : (payoutName number).toList =
      'p' :: ("ayoutAddress".toList ++ (toString number).toList) := by
    rw [payoutName, String.toList_append]
    rfl
  rw [Text.isName, chars]
  simp only [List.all_append, digits, first]
  decide

namespace Plan

variable {p : Plan} {g : Given} {fields locals : List String}

/-- A share goes to a constant of the contract, or to the owner. -/
theorem accounts_account (earns : p.earns = true) {share : Share} (own : share ∈ p.shares) :
    p.Accounts locals ((share.account p.owner).names g) := by
  obtain ⟨recipient, percentage⟩ := share
  cases recipient with
  | owner => exact accounts_owner
  | destination number address =>
    have declared : payoutName number ∈ p.payoutNames := by
      rw [payoutNames_eq_map]
      exact List.mem_map_of_mem (List.mem_filterMap.2 ⟨_, own, rfl⟩)
    refine (accounts_shared (isName_payoutName number) (isShared_payoutName number)).2 (.inr ?_)
    simp [available, names, earns, declared]

theorem accounts_amount (balance : "balance" ∈ locals) (share : Share) (isLast : Bool) :
    p.Accounts locals ((share.amount isLast).names g) := by
  have local_ : p.Accounts locals ((Expr.ident "balance").names g) :=
    (accounts_shared (by decide) (by decide)).2 (.inl balance)
  unfold Share.amount
  split
  · exact local_
  split
  · exact accounts_of_shared [] rfl (by simp)
  · simp [local_]

/-- Every share has its constant, as long as the shares are those of the plan. -/
theorem accounts_sendAll (earns : p.earns = true) (balance : "balance" ∈ locals)
    {shares : List Share} (own : shares ⊆ p.shares) :
    p.Accounts locals (Stmt.blockNames g (Share.sendAll p.owner shares)) := by
  have address : "Address" ∈ p.available := by simp [available, provided, earns]
  induction shares with
  | nil => exact accounts_nil
  | cons share shares ih =>
    have account : p.Accounts locals ((share.account p.owner).names g) :=
      accounts_account earns (own List.mem_cons_self)
    have amount : p.Accounts locals ((share.amount shares.isEmpty).names g) :=
      accounts_amount balance share _
    refine accounts_block_cons.2 ⟨?_, ih (List.Subset.trans (List.subset_cons_self _ _) own)⟩
    simp (disch := decide) [Share.send, Expr.method, Expr.apply, accounts_plain, accounts_shared,
      address, account, amount]

/-- The value of a constant address is given. -/
theorem accounts_address (name : String) (value : Expr) :
    p.Accounts locals
      (Member.names g (.fieldWith "address" ["private", "constant"] name value)) := by
  have header : Member.names g (.fieldWith "address" ["private", "constant"] name value) =
      namesIn "address" ++ ["private", "constant"].flatMap namesIn := by
    simp [Member.fieldWith, Member.names, Variable.headerNames]
  rw [header]
  exact accounts_of_shared [] rfl (by simp)

theorem accounts_payout : p.Accounts [] (p.payout.flatMap (Member.names g)) := by
  unfold payout
  split
  · rename_i earns
    refine accounts_flatMap fun m mem => ?_
    simp only [outline_cons, outline_nil, List.append_nil, List.mem_append, Part.mem_one,
      Part.mem_all] at mem
    rcases mem with rfl | constant | rfl
    · exact accounts_nil
    · obtain ⟨⟨recipient, percentage⟩, -, built⟩ := List.mem_filterMap.1 constant
      cases recipient with
      | owner => cases built
      | destination number address =>
        cases built
        exact accounts_address _ _
    · refine accounts_function (accounts_of_shared [] rfl (by simp)) ?_
      refine accounts_block_cons.2 ⟨accounts_of_shared [] rfl (by simp), ?_⟩
      exact accounts_sendAll earns List.mem_cons_self (List.Subset.refl _)
  · exact accounts_nil

theorem accounts_royaltySection : p.Accounts [] (p.royaltySection.flatMap (Member.names g)) := by
  unfold royaltySection
  split
  · exact accounts_nil
  · rename_i points royalty
    have interface : "IERC2981" ∈ p.available := by simp [available, provided, royalty]
    refine accounts_flatMap fun m mem => ?_
    simp only [List.mem_cons, List.not_mem_nil, or_false] at mem
    rcases mem with rfl | rfl | rfl
    · exact accounts_nil
    · exact accounts_function (accounts_of_shared [] rfl (by simp))
        (accounts_of_shared [] rfl (by simp))
    · refine accounts_function ?_ (accounts_of_shared ["IERC2981"] rfl (by simp [interface]))
      cases p.foundation <;> exact accounts_of_shared [] rfl (by simp)

theorem accounts_registrySection :
    p.Accounts [] (p.registrySection.flatMap (Member.names g)) := by
  unfold registrySection
  split
  · rename_i registry
    have declared : "proxyRegistryAddress" ∈ p.available ∧ "ProxyRegistry" ∈ p.available := by
      simp [available, names, provided, registry]
    refine accounts_flatMap fun m mem => ?_
    simp only [List.mem_cons, List.not_mem_nil, or_false] at mem
    rcases mem with rfl | rfl | rfl
    · exact accounts_nil
    · exact accounts_field _ (accounts_of_shared [] rfl (by simp))
    · refine accounts_of_shared ["ProxyRegistry", "ProxyRegistry", "proxyRegistryAddress"] rfl ?_
      simp [declared]
  · exact accounts_nil

theorem accounts_baseConstructor : p.Accounts locals (p.baseConstructor.names g) := by
  unfold baseConstructor Foundation.contract
  split
  · cases p.foundation <;> exact accounts_of_shared [] rfl (by simp)
  · exact accounts_of_shared [] rfl (by simp)

theorem accounts_allowance (has : p.hasAllowlist = true) {key : Expr} (count : Nat)
    (given : key.isKey g.keys = true ∨ p.Accounts locals (key.names g)) :
    p.Accounts locals ((Stmt.set (allowed key) (.nat count)).names g) := by
  have map : "allowedMintCountMap" ∈ p.available := by
    simp [available, names, countsMints, has]
  have object : p.Accounts locals ((Expr.ident "allowedMintCountMap").names g) :=
    (accounts_shared (by decide) (by decide)).2 (.inr map)
  rw [Stmt.names_set, Expr.names_nat, List.append_nil, allowed, Expr.names]
  refine accounts_append.2 ⟨object, ?_⟩
  split
  · exact accounts_nil
  · rename_i notKey
    exact given.resolve_left notKey

/-- The addresses that have allowances are given. -/
theorem accounts_initialAllowances (listed : ∀ a ∈ p.allowances, a.1 ∈ g.keys) {s : Stmt}
    (mem : s ∈ p.initialAllowances) : s.bound = [] ∧ p.Accounts locals (s.names g) := by
  simp only [initialAllowances, outline_cons, outline_nil, List.append_nil, List.mem_append,
    Part.mem_when, Part.mem_all, List.mem_map] at mem
  rcases mem with ⟨owner, rfl⟩ | ⟨⟨address, count⟩, own, rfl⟩
  · have has : p.hasAllowlist = true := by simp [hasAllowlist, owner]
    exact ⟨rfl, accounts_allowance has _ (.inr accounts_owner)⟩
  · have has : p.hasAllowlist = true := by simp [hasAllowlist, List.ne_nil_of_mem own]
    refine ⟨rfl, accounts_allowance has _ (.inl ?_)⟩
    simpa [Expr.isKey] using listed _ own

/-- What the constructor initializes is declared by the section to which it belongs. -/
theorem accounts_constructor (listed : ∀ a ∈ p.allowances, a.1 ∈ g.keys) :
    p.Accounts [] (p.constructor.names g) := by
  refine accounts_append.2 ⟨?_, (accounts_filter _).2 (accounts_append.2
    ⟨accounts_baseConstructor, accounts_block_of_unbound fun s mem => ?_⟩)⟩
  · refine accounts_flatMap fun argument mem => ?_
    obtain ⟨line, written, read⟩ := List.mem_filterMap.1 mem
    have types : ∀ line ∈ ["address baseFactory", "address " ++ Gate.addressArgument,
        "address " ++ registryArgument, "string memory customBaseURI_"],
        ((argumentOf line).map fun argument => (namesIn argument.2).filter isShared) = some [] := by
      decide
    have listed : line ∈ ["address baseFactory", "address " ++ Gate.addressArgument,
        "address " ++ registryArgument, "string memory customBaseURI_"] := by
      simp only [constructor, outline_cons, outline_nil, List.append_nil, List.mem_append,
        Part.mem_one, Part.mem_when] at written
      simp only [List.mem_cons, List.not_mem_nil, or_false]
      tauto
    have plain := types line listed
    rw [read] at plain
    exact accounts_of_shared [] (Option.some.inj plain) (by simp)
  · simp only [constructor, outline_cons, outline_nil, List.append_nil, List.mem_append,
      Part.mem_when, Part.mem_all] at mem
    rcases mem with ⟨own, rfl⟩ | ⟨gated, rfl⟩ | ⟨registry, rfl⟩ | allowance
    · have base : "customBaseURI" ∈ p.available := by
        rw [Bool.not_eq_true'] at own
        simp [available, names, own]
      exact ⟨rfl, accounts_of_shared ["customBaseURI"] rfl (by simp [base])⟩
    · have token : "accessToken" ∈ p.available ∧ "IERC721" ∈ p.available := by
        simp [available, names, provided, gated]
      exact ⟨rfl, accounts_of_shared ["accessToken", "IERC721"] rfl (by simp [token])⟩
    · have address : "proxyRegistryAddress" ∈ p.available := by simp [available, names, registry]
      exact ⟨rfl, accounts_of_shared ["proxyRegistryAddress"] rfl (by simp [address])⟩
    · exact accounts_initialAllowances listed allowance

/-- Section by section, all shared names of a contract are accounted for. -/
theorem accounts_contract (known : p.KnowsUri)
    (fields : ∀ parameter ∈ p.parameters, parameter.name ∈ g.fields)
    (keys : ∀ a ∈ p.allowances, a.1 ∈ g.keys) : p.Accounts [] (p.contract.names g) := by
  refine accounts_append.2 ⟨accounts_flatMap fun base mem => ?_, ?_⟩
  · simp only [contract, bases, outline_cons, outline_nil, List.append_nil, List.mem_append,
      Part.mem_one, Part.mem_when] at mem
    rcases mem with rfl | ⟨royalty, rfl⟩ | rfl | ⟨-, rfl⟩
    · cases p.foundation <;> exact accounts_of_shared [] rfl (by simp)
    · exact accounts_of_shared ["IERC2981"] rfl (by simp [available, provided, royalty])
    · exact accounts_of_shared [] rfl (by simp)
    · exact accounts_of_shared [] rfl (by simp)
  · have counters : p.Accounts [] ((Part.items (.when p.countsSupply
        (.declaration (.attach "Counters" "Counters.Counter")))).flatMap (Member.names g)) := by
      cases counts : p.countsSupply with
      | false => exact accounts_nil
      | true =>
        refine accounts_of_shared ["Counters", "Counters"] rfl ?_
        simp [available, provided, counts]
    simp only [contract, body, outline_cons, outline_nil, List.flatMap_append, accounts_append,
      Part.items, List.flatMap_cons, List.flatMap_nil, List.append_nil]
    exact ⟨counters, accounts_constructor keys, accounts_parameterSection, accounts_allowlist,
      accounts_minting, accounts_activation, accounts_uriSection known fields, accounts_payout,
      accounts_royaltySection, accounts_registrySection⟩

end Plan

namespace Settings

/-- Each name that a contract uses and shares with other sections is declared by the contract,
inherited, in the same file, or imported. -/
theorem names_resolve (s : Settings) {name : String}
    (used : name ∈ s.plan.contract.names
      ⟨s.parameterNames, s.allowances.map fun a => Text.trim a.address⟩)
    (shared : name ∈ vocabulary ∨ ∃ number, name = payoutName number) : s.plan.Resolves name := by
  have isShared : isShared name = true := by
    rcases shared with listed | ⟨number, rfl⟩
    · simp [Mintage.isShared, listed]
    · exact isShared_payoutName number
  have fields : ∀ parameter ∈ s.plan.parameters, parameter.name ∈ s.parameterNames :=
    fun parameter mem => List.mem_map_of_mem mem
  have keys : ∀ a ∈ s.plan.allowances, a.1 ∈ s.allowances.map fun a => Text.trim a.address := by
    intro a mem
    obtain ⟨allowance, own, rfl⟩ := List.mem_map.1 mem
    exact List.mem_map_of_mem own
  have accounts : s.plan.Accounts [] (s.plan.contract.names
      ⟨s.parameterNames, s.allowances.map fun a => Text.trim a.address⟩) :=
    Plan.accounts_contract s.knowsUri_plan fields keys
  exact Plan.resolves_of_available ((accounts name used isShared).resolve_left (by simp))

/-- A contract whose base lists the tokens, so that it does not declare `totalSupply` itself. -/
def sampleListed : Settings where
  __ := blank
  enumerable := true
  allowances := [⟨"MAX_SUPPLY", 3⟩]
  parameters := [⟨"count", .uint8⟩]

theorem totalSupply_resolves :
    "totalSupply" ∈ sampleListed.plan.contract.names ⟨["count"], ["MAX_SUPPLY"]⟩ ∧
      "totalSupply" ∈ vocabulary ∧ "totalSupply" ∉ sampleListed.plan.contract.declared ∧
      sampleListed.plan.Resolves "totalSupply" := by
  have used : "totalSupply" ∈ sampleListed.plan.contract.names ⟨["count"], ["MAX_SUPPLY"]⟩ := by
    decide +kernel
  have shared : "totalSupply" ∈ vocabulary := by decide
  exact ⟨used, shared, by decide +kernel, names_resolve sampleListed used (.inl shared)⟩

end Settings

end Mintage
