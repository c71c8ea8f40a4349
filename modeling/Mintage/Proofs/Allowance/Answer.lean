import Mintage.Proofs.Allowance.Bound

/-! The answer to the question how many tokens an account may still mint, over the whole life of a
contract. It fails for an account that has minted beyond its own allowance, up to the wallet limit,
when the sale is closed again. -/
namespace Mintage

open Solidity

namespace Plan

variable {p : Plan} {l : Ledger} {minted : Nat → Nat}

/-- The allowances before the sale are less than those during the sale only under a wallet limit. -/
theorem allowance_of_unlimited (unlimited : p.walletLimit = none) (account : Nat) :
    p.allowance l account = p.allowance { l with isOpen := true } account := by
  simp [allowance, unlimited]

theorem allowance_of_unlisted (unlisted : p.hasAllowlist = false) (account : Nat) :
    p.allowance l account = p.allowance { l with isOpen := true } account := by
  simp [allowance, unlisted]

/-- What was counted exceeds the allowance in one case alone. -/
theorem Accounted.exceeds_iff (accounted : p.Accounted l minted) (account : Nat) :
    p.allowance l account < l.counted account ↔
      p.hasAllowlist = true ∧ p.walletLimit ≠ none ∧ l.isOpen = false ∧
        l.allowed account < l.counted account := by
  have within := accounted.within account
  constructor
  · -- The bound holds as if the sale were open, so the allowance of now has to be a smaller one.
    intro exceeds
    have smaller : p.allowance l account ≠ p.allowance { l with isOpen := true } account := by omega
    have closed : l.isOpen = false := by
      cases opened : l.isOpen with
      | false => rfl
      | true =>
        have same : { l with isOpen := true } = l := by rw [← opened]
        exact absurd (same ▸ rfl) smaller
    have listed : p.hasAllowlist = true := by
      cases listed : p.hasAllowlist with
      | false => exact absurd (allowance_of_unlisted listed account) smaller
      | true => rfl
    rw [allowance_closed listed closed] at exceeds
    exact ⟨listed, fun unlimited => smaller (allowance_of_unlimited unlimited account), closed,
      exceeds⟩
  · rintro ⟨listed, -, closed, beyond⟩
    rwa [allowance_closed listed closed]

end Plan

namespace Settings

variable {s : Settings} {message : Message} {store : Store} {l : Ledger}

theorem transact_allowedMintCount (counts : s.plan.countsMints = true) (holds : store.Holds l)
    (unpaid : message.value = 0) (account : Nat) :
    s.plan.contract.transact message "allowedMintCount" [.number account] store =
      if l.counted account ≤ s.plan.allowance l account then
        some (.number (s.plan.allowance l account - l.counted account), store)
      else none := by
  have found := s.allowedMintCount_function?
  rw [if_pos counts] at found
  have admitted : Function.admits ⟨"allowedMintCount", ["address minter"], ["public", "view"],
      some "uint256", s.plan.allowedMintCount⟩ message store = true := by
    simp [Function.admits, unpaid]
  have same : { store with balance := store.balance + message.value } = store := by rw [unpaid]; rfl
  unfold Contract.transact
  rw [found, Option.bind_eq_bind, Option.bind_some, if_pos admitted, same]
  exact invoke_allowedMintCount counts holds account

/-- Under allowances and a wallet limit, in a sale that is closed, an account has minted more than
its own allowance. -/
structure Overdrawn (s : Settings) (l : Ledger) (minted : Nat → Nat) (account : Nat) : Prop where
  listed : s.ownerAllowance ≠ 0 ∨ s.allowances ≠ []
  limited : s.walletLimit ≠ none
  closed : l.isOpen = false
  beyond : l.allowed account < minted account

/-- Said of the settings: the four conditions under which more is counted than allowed. -/
theorem exceeds_iff_overdrawn {minted : Nat → Nat} (accounted : s.plan.Accounted l minted)
    (account : Nat) :
    s.plan.allowance l account < l.counted account ↔ s.Overdrawn l minted account := by
  have limited : s.plan.walletLimit ≠ none ↔ s.walletLimit ≠ none := by simp [plan]
  rw [accounted.exceeds_iff, hasAllowlist_plan]
  constructor
  · rintro ⟨listed, bounded, closed, beyond⟩
    exact ⟨listed, limited.1 bounded, closed, accounted.exact bounded account ▸ beyond⟩
  · rintro ⟨listed, bounded, closed, beyond⟩
    have exact := accounted.exact (limited.2 bounded) account
    exact ⟨listed, limited.2 bounded, closed, exact.symm ▸ beyond⟩

/-- Whatever the order in which accounts mint and the owner opens and closes the sale, a contract
answers for every account what is left of its allowance, from which no more is subtracted than it
is; only for an account that is overdrawn the subtraction fails, and there is no answer. -/
theorem allowedMintCount_answers (s : Settings) (everybody : s.onlyOwnerMints = false)
    (counts : s.ownerAllowance ≠ 0 ∨ s.allowances ≠ [] ∨ s.walletLimit ≠ none)
    {store : Store} {minted : Nat → Nat} (past : s.plan.contract.History store minted) :
    ∃ l, store.Holds l ∧ ∀ (message : Message) (account : Nat), message.value = 0 →
      (¬s.Overdrawn l minted account → l.counted account ≤ s.plan.allowance l account ∧
        s.plan.contract.transact message "allowedMintCount" [.number account] store =
          some (.number (s.plan.allowance l account - l.counted account), store)) ∧
      (s.Overdrawn l minted account →
        s.plan.contract.transact message "allowedMintCount" [.number account] store = none) := by
  have counts' := countsMints_plan.2 counts
  obtain ⟨-, l, holds, accounted⟩ := accounted_of_history counts' everybody past
  refine ⟨l, holds, fun message account unpaid => ?_⟩
  rw [transact_allowedMintCount counts' holds unpaid, ← exceeds_iff_overdrawn accounted]
  constructor
  · intro notExceeded
    have enough := Nat.not_lt.1 notExceeded
    exact ⟨enough, if_pos enough⟩
  · intro exceeded
    exact if_neg (Nat.not_le.2 exceeded)

/-- An account mints two tokens during the sale, and the sale is closed. -/
theorem exists_history_closed :
    ∃ store minted, sampleAllowance.plan.contract.History store minted ∧ minted 7 = 2 ∧
      minted 1 = 0 ∧
      sampleAllowance.plan.contract.transact ⟨7, 0, fun _ => .unit⟩ "allowedMintCount" [.number 7]
        store = none := by
  let c := sampleAllowance.plan.contract
  have life : (c.deploy ⟨1, 0, fun _ => .unit⟩ [.text "base"] closedSale).bind (fun a =>
      (c.transact ⟨1, 0, fun _ => .unit⟩ "setSaleIsActive" [.truth true] a).bind fun b =>
      (c.transact ⟨7, 0, fun _ => .unit⟩ "mint" [.number 2] b.2).bind fun d =>
      (c.transact ⟨1, 0, fun _ => .unit⟩ "setSaleIsActive" [.truth false] d.2).map fun e =>
        (b.2.tokens.length, d.2.tokens.length,
          (c.transact ⟨7, 0, fun _ => .unit⟩ "allowedMintCount" [.number 7] e.2).isSome)) =
      some (0, 2, false) := by decide +kernel
  obtain ⟨a, built, life⟩ := Option.bind_eq_some_iff.1 life
  obtain ⟨b, opened, life⟩ := Option.bind_eq_some_iff.1 life
  obtain ⟨d, called, life⟩ := Option.bind_eq_some_iff.1 life
  obtain ⟨e, closed, seen⟩ := Option.map_eq_some_iff.1 life
  simp only [Prod.mk.injEq] at seen
  obtain ⟨before, behind, answer⟩ := seen
  refine ⟨e.2, _, .switchSale _ _ e.1 (.mint _ _ d.1 (.switchSale _ _ b.1
    (.deployed _ _ fresh_closedSale built) opened) called) closed, ?_, rfl, by simpa using answer⟩
  rw [before, behind]
  rfl

/-- The owner is answered, the account that minted two tokens is overdrawn. -/
theorem allowedMintCount_sampleAllowance :
    ∃ store minted, sampleAllowance.plan.contract.History store minted ∧
      ∃ l, store.Holds l ∧ sampleAllowance.Overdrawn l minted 7 ∧
        sampleAllowance.plan.contract.transact ⟨1, 0, fun _ => .unit⟩ "allowedMintCount"
          [.number 1] store =
            some (.number (sampleAllowance.plan.allowance l 1 - l.counted 1), store) := by
  obtain ⟨store, minted, past, -, none, unanswered⟩ := exists_history_closed
  obtain ⟨l, holds, answers⟩ :=
    allowedMintCount_answers sampleAllowance rfl (.inl (by decide)) past
  have sober : ¬sampleAllowance.Overdrawn l minted 1 := fun overdrawn =>
    Nat.not_lt_zero _ (none ▸ overdrawn.beyond)
  have overdrawn : sampleAllowance.Overdrawn l minted 7 := by
    refine Classical.byContradiction fun other => ?_
    have answer := ((answers ⟨7, 0, fun _ => .unit⟩ 7 rfl).1 other).2
    rw [unanswered] at answer
    cases answer
  exact ⟨store, minted, past, l, holds, overdrawn, ((answers _ 1 rfl).1 sober).2⟩

theorem allowedMintCount_unanswered :
    ∃ store minted, sampleAllowance.plan.contract.History store minted ∧
      sampleAllowance.plan.contract.transact ⟨7, 0, fun _ => .unit⟩ "allowedMintCount" [.number 7]
        store = none := by
  obtain ⟨store, minted, past, -, -, unanswered⟩ := exists_history_closed
  exact ⟨store, minted, past, unanswered⟩

end Settings

end Mintage
