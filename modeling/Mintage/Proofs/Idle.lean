import Mathlib.Algebra.Ring.Nat
import Mathlib.Logic.Relation
import Mintage.Contract.Assembly
import Mintage.Proofs.Settings.Shares

/-! Options without effect: whatever they are set to, the program is the same. -/
namespace Mintage

/-- One destination is left out that receives nothing: it asks for nothing, or those in front of it
ask for everything. -/
inductive Payout.Omits : List Payout → List Payout → Prop where
  | one (before : List Payout) (payout : Payout) (after : List Payout)
    (idle : payout.percentage = 0 ∨ 100 ≤ demand before) :
    Omits (before ++ payout :: after) (before ++ after)

/-- A destination that receives nothing takes no number and leaves as much as it found. -/
theorem sharesOf_omit (number left : Nat) (before : List Payout) {payout : Payout}
    (after : List Payout) (idle : payout.percentage = 0 ∨ left ≤ Payout.demand before) :
    sharesOf number left (before ++ payout :: after) = sharesOf number left (before ++ after) := by
  induction before generalizing number left with
  | nil =>
    have nothing : min payout.percentage.toNat left = 0 := by
      rcases idle with zero | full
      · simp [zero]
      · have none : left = 0 := by simpa [Payout.demand] using full
        rw [none, Nat.min_zero]
    simp [sharesOf, nothing]
  | cons first before ih =>
    have later : payout.percentage = 0 ∨
        left - min first.percentage.toNat left ≤ Payout.demand before := by
      refine idle.imp_right fun full => ?_
      simp only [Payout.demand, List.map_cons, List.sum_cons] at full ⊢
      omega
    simp only [List.cons_append, sharesOf]
    split
    · rename_i zero
      rw [zero, Nat.sub_zero] at later
      exact ih number left later
    · rw [ih (number + 1) _ later]

theorem sharesOf_of_omits {payouts kept : List Payout}
    (omitted : Relation.ReflTransGen Payout.Omits payouts kept) :
    sharesOf 1 100 kept = sharesOf 1 100 payouts := by
  induction omitted with
  | refl => rfl
  | tail _ last ih =>
    cases last with
    | one before payout after idle => rw [← ih, sharesOf_omit 1 100 before after idle]

namespace Settings

/-- The second settings are the first but for options that have no effect there. -/
structure Idle (s t : Settings) : Prop where
  others : t = { s with
    price := t.price
    royalty := t.royalty
    enumerable := t.enumerable
    registry := t.registry
    gate := t.gate
    gateSwitches := t.gateSwitches
    gateMoves := t.gateMoves
    tokenIdLimit := t.tokenIdLimit
    batchLimit := t.batchLimit
    contractUri := t.contractUri
    payouts := t.payouts }
  price : t.price = s.price ∨ t.price = none ∧ s.price? = none
  royalty : t.royalty = s.royalty ∨ t.royalty = none ∧ s.royalty? = none
  enumerable : t.enumerable = s.enumerable ∨ t.enumerable = false ∧ s.delegated = true
  registry : t.registry.isSet = s.registry.isSet ∨ t.registry = .empty ∧ s.delegated = true
  gate : t.gate.isSet = s.gate.isSet
  gateSwitches : t.gateSwitches = s.gateSwitches ∨ t.gateSwitches = false ∧ s.gate.isSet = false
  gateMoves : t.gateMoves = s.gateMoves ∨ t.gateMoves = false ∧ s.gate.isSet = false
  tokenIdLimit : t.tokenIdLimit = s.tokenIdLimit ∨
    t.tokenIdLimit = none ∧ (s.minterPicksIds = false ∨ s.tokenIdLimit = s.supply)
  batchLimit : t.batchLimit = s.batchLimit ∨
    t.batchLimit = none ∧ ∀ limit ∈ s.batchLimit, limit ≤ 1
  contractUri : t.contractUri = s.contractUri ∨
    t.contractUri = none ∧ ∀ uri ∈ s.contractUri, Text.trim uri = ""
  payouts : Relation.ReflTransGen Payout.Omits s.payouts t.payouts ∨
    t.payouts = [] ∧ s.earns = false

namespace Idle

variable {s t : Settings}

theorem price?_eq (idle : Idle s t) : t.price? = s.price? := by
  rcases idle.price with same | ⟨cleared, free⟩
  · simp only [price?, priceText?, same]
  · rw [free]
    simp [price?, priceText?, Text.content?, cleared]

theorem planPrice_eq (idle : Idle s t) :
    (t.price?.map fun wei => (⟨wei, t.priceText?.getD ""⟩ : Price)) =
      s.price?.map fun wei => ⟨wei, s.priceText?.getD ""⟩ := by
  rw [idle.price?_eq]
  rcases idle.price with same | ⟨-, free⟩
  · simp only [priceText?, same]
  · rw [free]
    rfl

theorem royalty?_eq (idle : Idle s t) : t.royalty? = s.royalty? := by
  rcases idle.royalty with same | ⟨cleared, none⟩
  · simp only [royalty?, royaltyText?, same]
  · rw [none]
    simp [royalty?, royaltyText?, Text.content?, cleared]

theorem earns_eq (idle : Idle s t) : t.earns = s.earns := by
  rw [earns, earns, idle.price?_eq, idle.royalty?_eq]

theorem delegated_eq (idle : Idle s t) : t.delegated = s.delegated := by
  rw [idle.others]

/-- A delegated contract has its foundation whether it lists its tokens or not. -/
theorem foundation_eq (idle : Idle s t) :
    Foundation.choose t.delegated t.enumerable = Foundation.choose s.delegated s.enumerable := by
  rw [idle.delegated_eq]
  rcases idle.enumerable with same | ⟨-, delegated⟩
  · rw [same]
  · rw [delegated]
    rfl

theorem usesRegistry_eq (idle : Idle s t) : t.usesRegistry = s.usesRegistry := by
  rw [usesRegistry, usesRegistry, idle.delegated_eq]
  rcases idle.registry with same | ⟨-, delegated⟩
  · rw [same]
  · rw [delegated]
    rfl

/-- A rule without an address is none, whatever its switches say. -/
theorem gate?_eq (idle : Idle s t) : t.gate? = s.gate? := by
  rw [gate?, gate?, idle.gate]
  cases set : s.gate.isSet with
  | false => rfl
  | true =>
    have switches : t.gateSwitches = s.gateSwitches := by simpa [set] using idle.gateSwitches
    have moves : t.gateMoves = s.gateMoves := by simpa [set] using idle.gateMoves
    rw [switches, moves]

theorem ownTokenIdLimit?_eq (idle : Idle s t) : t.ownTokenIdLimit? = s.ownTokenIdLimit? := by
  have picks : t.minterPicksIds = s.minterPicksIds := by rw [idle.others]
  have supply : t.supply = s.supply := by rw [idle.others]
  rw [ownTokenIdLimit?, ownTokenIdLimit?, picks, supply]
  rcases idle.tokenIdLimit with same | ⟨cleared, unused | equal⟩
  · rw [same]
  · simp [unused]
  · simp [cleared, equal]

/-- With a limit of one token at a time there are no batches, as without a limit. -/
theorem batch?_eq (idle : Idle s t) : t.batch? = s.batch? := by
  rw [batch?, batch?]
  rcases idle.batchLimit with same | ⟨cleared, single⟩
  · rw [same]
  · rw [cleared]
    cases limit : s.batchLimit with
    | none => rfl
    | some limit' =>
      have one : limit'.toNat ≤ 1 := UInt32.le_iff_toNat_le.1 (single limit' limit)
      simp [Option.filter, Nat.not_lt.2 one]

/-- An address of blanks is no address. -/
theorem contractUri?_eq (idle : Idle s t) : t.contractUri? = s.contractUri? := by
  rw [contractUri?, contractUri?]
  rcases idle.contractUri with same | ⟨cleared, blank⟩
  · rw [same]
  · rw [cleared]
    cases uri : s.contractUri with
    | none => rfl
    | some uri' =>
      rw [Text.content?, Text.content?, Option.map_some, blank uri' uri]
      rfl

/-- A contract that does not earn has no shares, whatever the destinations. -/
theorem shares_eq (idle : Idle s t) :
    (if t.earns then t.shares else []) = if s.earns then s.shares else [] := by
  rw [idle.earns_eq]
  rcases idle.payouts with omitted | ⟨-, poor⟩
  · rw [shares, shares, sharesOf_of_omits omitted]
  · simp [poor]

/-- Options without effect leave no trace in the plan. -/
theorem plan_eq (idle : Idle s t) : t.plan = s.plan := by
  have price := idle.planPrice_eq
  have royalty := idle.royalty?_eq
  have foundation := idle.foundation_eq
  have registry := idle.usesRegistry_eq
  have gate := idle.gate?_eq
  have tokenIdLimit := idle.ownTokenIdLimit?_eq
  have batch := idle.batch?_eq
  have contractUri := idle.contractUri?_eq
  have shares := idle.shares_eq
  have others := idle.others
  unfold plan
  rw [price, royalty, foundation, registry, gate, tokenIdLimit, batch, contractUri, shares, others]

end Idle

/-- However options without effect are changed, and however often, the program is the same. -/
theorem program_eq_of_idle {s t : Settings} (chain : Relation.ReflTransGen Idle s t) :
    t.program = s.program := by
  induction chain with
  | refl => rfl
  | tail _ last ih => rw [program, last.plan_eq, ← program, ih]

/-- A delegated contract that is paid, with options that a delegated contract cannot use and others
that say nothing. -/
def sampleIdle : Settings where
  __ := blank
  supply := some 5
  batchLimit := some 1
  tokenIdLimit := some 5
  price := some " 0.5 "
  royalty := some "100.01"
  contractUri := some " "
  enumerable := true
  delegated := true
  minterPicksIds := true
  gateSwitches := true
  gateMoves := true
  gate := AddressBook.empty.insert "mainnet" " "
  registry := AddressBook.empty.insert "mainnet" "0x1"
  payouts := [⟨"0xA", 60⟩, ⟨"0xB", 0⟩, ⟨"0xC", 70⟩, ⟨"0xD", 5⟩]

/-- The same contract without them. -/
def sampleBare : Settings where
  __ := blank
  supply := some 5
  price := some " 0.5 "
  delegated := true
  minterPicksIds := true
  payouts := [⟨"0xA", 60⟩, ⟨"0xC", 70⟩]

theorem program_sampleBare :
    Relation.ReflTransGen Idle sampleIdle sampleBare ∧ sampleBare.program = sampleIdle.program := by
  have free : sampleIdle.royalty? = none := by decide +kernel
  have closed : sampleIdle.gate.isSet = false := by decide +kernel
  have single : ∀ limit ∈ sampleIdle.batchLimit, limit ≤ 1 := by
    rintro limit ⟨⟩
    decide
  have blank : ∀ uri ∈ sampleIdle.contractUri, Text.trim uri = "" := by
    rintro uri ⟨⟩
    decide
  have payouts : Relation.ReflTransGen Payout.Omits sampleIdle.payouts sampleBare.payouts :=
    .tail (.single (.one [⟨"0xA", 60⟩] ⟨"0xB", 0⟩ [⟨"0xC", 70⟩, ⟨"0xD", 5⟩] (.inl rfl)))
      (.one [⟨"0xA", 60⟩, ⟨"0xC", 70⟩] ⟨"0xD", 5⟩ [] (.inr (by decide)))
  have idle : Idle sampleIdle sampleBare := {
    others := rfl
    price := .inl rfl
    royalty := .inr ⟨rfl, free⟩
    enumerable := .inr ⟨rfl, rfl⟩
    registry := .inr ⟨rfl, rfl⟩
    gate := closed.symm
    gateSwitches := .inr ⟨rfl, closed⟩
    gateMoves := .inr ⟨rfl, closed⟩
    tokenIdLimit := .inr ⟨rfl, .inr rfl⟩
    batchLimit := .inr ⟨rfl, single⟩
    contractUri := .inr ⟨rfl, blank⟩
    payouts := .inl payouts }
  exact ⟨.single idle, program_eq_of_idle (.single idle)⟩

end Settings

end Mintage
