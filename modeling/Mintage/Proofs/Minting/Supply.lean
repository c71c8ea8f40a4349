import Mintage.Proofs.Minting.Call

/-! The tokens of a contract over its whole life. -/
namespace Mintage

open Solidity

/-- The stores that a contract can have. It starts without tokens, a call of `mint` that does not
fail changes the store, and so does everything else that leaves the tokens and the counters
alone. -/
inductive Solidity.Contract.Reachable (c : Contract) : Store → Prop where
  | deployed {store : Store} (empty : store.tokens = []) (fresh : ∀ name, store.counters name = 0) :
    Reachable c store
  | mint {store store' : Store} (message : Message) (values : List Value) (value : Value)
    (reached : Reachable c store)
    (called : c.transact message "mint" values store = some (value, store')) : Reachable c store'
  | other {store store' : Store} (reached : Reachable c store) (kept : store.Keeps store') :
    Reachable c store'

namespace Settings

variable {s : Settings} {store store' : Store}

theorem mint_function? :
    s.plan.contract.function? "mint" =
      some ⟨"mint", s.plan.mintArguments, s.plan.mintModifiers, none, s.plan.mintBody⟩ := by
  have mem : Member.function "mint" s.plan.mintArguments s.plan.mintModifiers none s.plan.mintBody ∈
      s.plan.contract.body := by
    simp [Plan.contract, Plan.body, Plan.minting]
  exact function?_of_mem mem

/-- From outside, a call mints an admitted number of tokens or fails. -/
theorem transact_mint (sound : s.plan.Sound store) {message : Message} {values : List Value}
    {value : Value}
    (called : s.plan.contract.transact message "mint" values store = some (value, store')) :
    ∃ n, s.Admitted message store n ∧ s.Grown store n store' := by
  unfold Contract.transact at called
  rw [mint_function?] at called
  simp only [Option.bind_eq_bind, Option.bind_some] at called
  split at called
  · rw [callDepth, Contract.invoke_of_function? _ mint_function?] at called
    simp only [Contract.perform, Option.bind_eq_bind, Option.bind_eq_some_iff,
      Prod.exists] at called
    obtain ⟨locals, bound, flow, after, run, same⟩ := called
    cases same
    have soundToo : s.plan.Sound { store with balance := store.balance + message.value } :=
      sound.of_keeps ⟨rfl, rfl⟩
    obtain ⟨-, -, n, admitted, grown⟩ := leads_mintBody soundToo bound _ _ run
    exact ⟨n, ⟨admitted.limited, admitted.single, admitted.supplied, admitted.paid⟩, grown⟩
  · cases called

theorem sound_of_deployed (empty : store.tokens = []) (fresh : ∀ name, store.counters name = 0) :
    s.plan.Sound store := by
  refine ⟨?_, ?_, ?_, ?_⟩
  · simp [Plan.supplyOf, empty, fresh]
  · simp [empty]
  · simp [empty]
  · simp [empty]

/-- Calls of `mint` keep the invariant, and so does everything that leaves the tokens alone. -/
theorem sound_of_reachable (reached : s.plan.contract.Reachable store) : s.plan.Sound store := by
  induction reached with
  | deployed empty fresh => exact sound_of_deployed empty fresh
  | mint message values value reached called ih =>
    obtain ⟨n, -, grown⟩ := transact_mint ih called
    exact grown.1
  | other reached kept ih => exact ih.of_keeps kept

/-- A supply is never exceeded: each call is admitted against the tokens that are there. -/
theorem supply_of_reachable (reached : s.plan.contract.Reachable store) {supply : Nat}
    (set : s.plan.supply = some supply) : store.tokens.length ≤ supply := by
  induction reached with
  | deployed empty fresh => simp [empty]
  | mint message values value reached called ih =>
    obtain ⟨n, admitted, -, minted, split, length⟩ :=
      transact_mint (sound_of_reachable reached) called
    have enough := admitted.supplied supply set
    rw [split, List.length_append]
    omega
  | other reached kept ih =>
    rw [kept.tokens]
    exact ih

/-- Picked numbers are bounded by their own limit, or else by the supply. -/
theorem idBound_plan (picks : s.minterPicksIds = true) {bound : UInt64}
    (set : s.tokenIdLimit.or s.supply = some bound) : s.plan.idBound = some bound.toNat := by
  simp only [Plan.idBound, plan, ownTokenIdLimit?, picks, Bool.true_and]
  cases own : s.tokenIdLimit with
  | none =>
    rw [own, Option.none_or] at set
    simp [set]
  | some limit =>
    rw [own, Option.some_or] at set
    cases set
    split
    · rfl
    · rename_i same
      have shared : some bound = s.supply := by simpa using same
      rw [← shared]
      rfl

theorem batch_plan {limit : UInt32} (set : s.batchLimit = some limit) (several : 1 < limit.toNat) :
    s.plan.batch = some limit.toNat := by
  simp [plan, batch?, set, several]

theorem mintsSeveral_plan (one : ∀ limit, s.batchLimit = some limit → limit.toNat ≤ 1) :
    s.plan.mintsSeveral = false := by
  cases set : s.batchLimit with
  | none => simp [Plan.mintsSeveral, plan, batch?, set]
  | some limit =>
    have small := one limit set
    simp [Plan.mintsSeveral, plan, batch?, set, small]

/-- Whatever the calls of `mint`: the supply is the number of tokens and within its limit, every
call mints as many tokens as one may and is paid for all of them, and the tokens are numbered from
zero or, where minters pick the numbers, differ and lie below the bound. -/
theorem mint_keeps_supply (s : Settings) {store : Store}
    (reached : s.plan.contract.Reachable store) :
    (∀ message, s.plan.contract.invoke message callDepth "totalSupply" [] store =
      some (.number store.tokens.length, store)) ∧
    (∀ supply, s.supply = some supply → store.tokens.length ≤ supply.toNat) ∧
    (∀ message values value store',
      s.plan.contract.transact message "mint" values store = some (value, store') →
      ∃ minted : List Nat, store'.tokens = minted ++ store.tokens ∧
        (∀ limit, s.batchLimit = some limit → 1 < limit.toNat → minted.length ≤ limit.toNat) ∧
        ((∀ limit, s.batchLimit = some limit → limit.toNat ≤ 1) → minted.length = 1) ∧
        ∀ price, s.price? = some price → minted.length * price ≤ message.value) ∧
    (s.minterPicksIds = false → store.tokens = (List.range store.tokens.length).reverse) ∧
    (s.minterPicksIds = true → store.tokens.Nodup ∧
      ∀ bound, s.tokenIdLimit.or s.supply = some bound →
        ∀ id ∈ store.tokens, id < bound.toNat) := by
  have sound := sound_of_reachable reached
  refine ⟨fun message => ?_, fun supply set => ?_, ?_, sound.numbered,
    fun picks => ⟨sound.distinct, ?_⟩⟩
  · rw [callDepth, invoke_totalSupply, sound.counted]
  · exact supply_of_reachable reached (by simp [plan, set])
  · intro message values value store' called
    obtain ⟨n, admitted, -, minted, split, length⟩ := transact_mint sound called
    refine ⟨minted, split, fun limit set several => ?_, fun one => ?_, fun price set => ?_⟩
    · rw [length]
      exact admitted.limited _ (batch_plan set several)
    · rw [length]
      exact admitted.single (mintsSeveral_plan one)
    · rw [length]
      exact admitted.paid ⟨price, s.priceText?.getD ""⟩ (by simp [plan, set])
  · intro bound set
    exact sound.bounded picks _ (idBound_plan picks set)

/-- A sale of up to three tokens at a time. -/
def sampleSale : Settings where
  __ := blank
  supply := some 5
  batchLimit := some 3
  price := some "0.000000000000000001"

/-- A store without tokens in which all switches are on. -/
def openSale : Store where
  balance := 0
  sent := []
  owner := 1
  tokens := []
  counters := fun _ => 0
  fields := fun _ => .truth true
  entries := fun _ _ => .unit
  questions := 0

theorem mint_sampleSale :
    ∃ store, sampleSale.plan.contract.Reachable store ∧ store.tokens = [1, 0] ∧
      (∀ message, sampleSale.plan.contract.invoke message callDepth "totalSupply" [] store =
        some (.number 2, store)) ∧ 2 ≤ (5 : UInt64).toNat := by
  have run : (sampleSale.plan.contract.transact ⟨7, 2, fun _ => .unit⟩ "mint" [.number 2]
      openSale).map (·.2.tokens) = some [1, 0] := by decide +kernel
  obtain ⟨⟨value, store⟩, called, tokens⟩ := Option.map_eq_some_iff.1 run
  have reached : sampleSale.plan.contract.Reachable store :=
    .mint _ _ value (.deployed rfl fun _ => rfl) called
  obtain ⟨counts, limited, -⟩ := mint_keeps_supply sampleSale reached
  have length : store.tokens.length = 2 := congrArg List.length tokens
  rw [length] at counts limited
  exact ⟨store, reached, tokens, counts, limited 5 rfl⟩

end Settings

end Mintage
