import Mintage.Proofs.Allowance.Seed
import Mintage.Proofs.Minting.Supply

/-! The accounts of those who mint over the whole life of a contract: nobody is counted for more
than an allowance, whatever the order of the calls. -/
namespace Mintage

open Solidity

namespace Plan

variable {p : Plan} {l l' : Ledger} {minted : Nat → Nat} {account n : Nat}

/-- Nobody loses by the opening of the sale. -/
theorem allowance_le_isOpen (p : Plan) (l : Ledger) (account : Nat) :
    p.allowance l account ≤ p.allowance { l with isOpen := true } account := by
  unfold allowance
  cases p.hasAllowlist with
  | false => exact Nat.le_refl _
  | true =>
    cases l.isOpen with
    | false => exact Nat.le_max_left _ _
    | true => exact Nat.le_refl _

theorem allowance_closed (listed : p.hasAllowlist = true) (closed : l.isOpen = false) :
    p.allowance l account = l.allowed account := by
  simp [allowance, listed, closed]

/-- Nobody is counted for more than the allowance during the sale, and where there is a wallet limit
every token is counted. -/
structure Accounted (p : Plan) (l : Ledger) (minted : Nat → Nat) : Prop where
  within : ∀ account, l.counted account ≤ p.allowance { l with isOpen := true } account
  exact : p.walletLimit ≠ none → ∀ account, l.counted account = minted account

namespace Accounted

theorem unused (isOpen : Bool) (allowed : Nat → Nat) :
    p.Accounted ⟨isOpen, fun _ => 0, allowed⟩ fun _ => 0 :=
  ⟨fun _ => Nat.zero_le _, fun _ _ => rfl⟩

/-- Nothing of this depends on whether the sale is open. -/
theorem switchSale (accounted : p.Accounted l minted) (isOpen : Bool) :
    p.Accounted { l with isOpen } minted :=
  ⟨accounted.within, accounted.exact⟩

theorem mint (accounted : p.Accounted l minted) (passes : p.Passes l account n l') :
    p.Accounted l' fun a => minted a + if a = account then n else 0 := by
  cases passes with
  | counted enough started =>
    refine ⟨fun a => ?_, fun limited a => ?_⟩
    · have within := accounted.within a
      have later : p.allowance { l.count account n with isOpen := true } a =
          p.allowance { l with isOpen := true } a := rfl
      rw [later]
      by_cases same : a = account
      · have open_le := p.allowance_le_isOpen l account
        subst same
        simp only [Ledger.count, if_true]
        omega
      · simpa [Ledger.count, same] using within
    · simp [Ledger.count, accounted.exact limited a]
  | uncounted started unlimited =>
    exact ⟨accounted.within, fun limited => absurd unlimited limited⟩

end Accounted

/-- Before the sale an account mints from its own allowance or not at all. -/
theorem Passes.of_closed (passes : p.Passes l account n l') (closed : l.isOpen = false) :
    p.hasAllowlist = true ∧ l.counted account + n ≤ l.allowed account := by
  cases passes with
  | counted enough started =>
    cases listed : p.hasAllowlist with
    | false => simp [started listed] at closed
    | true =>
      rw [allowance_closed listed closed] at enough
      exact ⟨rfl, enough⟩
  | uncounted started unlimited => simp [started] at closed

end Plan

namespace Settings

variable {s : Settings} {message : Message} {depth : Nat} {locals : Locals}
  {store store' : Store} {l : Ledger} {value : Value} {values : List Value}

/-- The whole function `mint` where everybody may mint. -/
theorem leads_mintBody_holds (depth : Nat) (counts : s.plan.countsMints = true)
    (everybody : s.plan.onlyOwnerMints = false) (sound : s.plan.Sound store) (holds : store.Holds l)
    (bound : bindArguments s.plan.mintArguments values = some locals) :
    Stmt.Leads (s.scope message (depth + 2)) s.plan.mintBody locals store fun _ store' =>
      ∃ n l', s.plan.Passes l message.sender n l' ∧ store'.Holds l' ∧ s.Grown store n store' := by
  rw [Plan.mintBody_eq]
  refine (leads_batchChecks bound).append fun locals' first ⟨same, n, ready⟩ => ?_
  rw [same]
  have sale : Stmt.Leads (s.scope message (depth + 2))
      (if s.plan.onlyOwnerMints then [] else s.plan.saleChecks s.plan.mintCount) locals' store
      fun locals'' store' => locals'' = locals' ∧
        ∃ l', s.plan.Passes l message.sender n l' ∧ store'.Holds l' := by
    rw [everybody]
    exact leads_saleChecks counts holds ready.ofMint fun _ => ready.eval_mintCount
  refine (leads_sale.and sale).append
    fun locals'' second ⟨⟨same, kept⟩, _, l', passes, holds'⟩ => ?_
  rw [same]
  have sound' := sound.of_keeps kept
  refine ((leads_afterSale sound' ready).and (leads_afterSale_holds sound' holds' ready)).mono
    fun _ store' ⟨⟨_, later, minted, split, length⟩, holds''⟩ => ?_
  rw [kept.tokens] at split
  exact ⟨n, l', passes, holds'', later, minted, split, length⟩

theorem transact_mint_holds (counts : s.plan.countsMints = true)
    (everybody : s.plan.onlyOwnerMints = false) (sound : s.plan.Sound store) (holds : store.Holds l)
    (called : s.plan.contract.transact message "mint" values store = some (value, store')) :
    ∃ n l', s.plan.Passes l message.sender n l' ∧ store'.Holds l' ∧ s.Grown store n store' := by
  unfold Contract.transact at called
  rw [mint_function?] at called
  simp only [Option.bind_eq_bind, Option.bind_some] at called
  split at called
  · rw [callDepth, Contract.invoke_of_function? _ mint_function?] at called
    simp only [Contract.perform, Option.bind_eq_bind, Option.bind_eq_some_iff,
      Prod.exists] at called
    obtain ⟨locals, bound, flow, after, run, same⟩ := called
    cases same
    have paid : s.plan.Sound { store with balance := store.balance + message.value } :=
      sound.of_keeps ⟨rfl, rfl⟩
    obtain ⟨-, -, passed⟩ := leads_mintBody_holds 1021 counts everybody paid
      (holds.of_eq rfl rfl) bound _ _ run
    exact passed
  · cases called

/-- Before the sale a call mints at most what is left of the allowance of its sender, and fails
where there are no allowances. -/
theorem transact_mint_closed (counts : s.plan.countsMints = true)
    (everybody : s.plan.onlyOwnerMints = false) (sound : s.plan.Sound store) (holds : store.Holds l)
    (closed : l.isOpen = false)
    (called : s.plan.contract.transact message "mint" values store = some (value, store')) :
    s.plan.hasAllowlist = true ∧ ∃ new : List Nat, store'.tokens = new ++ store.tokens ∧
      l.counted message.sender + new.length ≤ l.allowed message.sender := by
  obtain ⟨n, l', passes, -, -, new, split, length⟩ :=
    transact_mint_holds counts everybody sound holds called
  obtain ⟨listed, enough⟩ := passes.of_closed closed
  exact ⟨listed, new, split, length ▸ enough⟩

theorem setSaleIsActive_function? :
    s.plan.contract.function? "setSaleIsActive" =
      some ⟨"setSaleIsActive", ["bool saleIsActive_"], ["external", "onlyOwner"], none,
        [.set Plan.saleIsActive (.ident "saleIsActive_")]⟩ := by
  have mem : Member.setter "setSaleIsActive" "bool" "saleIsActive" ∈ s.plan.contract.body := by
    simp [Plan.contract, Plan.body, Plan.activation]
  exact function?_of_mem mem

/-- The owner opens or closes the sale, and nothing else changes. -/
theorem transact_setSaleIsActive_holds (holds : store.Holds l)
    (called : s.plan.contract.transact message "setSaleIsActive" values store =
      some (value, store')) :
    store.Keeps store' ∧ ∃ isOpen, store'.Holds { l with isOpen } := by
  unfold Contract.transact at called
  rw [setSaleIsActive_function?] at called
  simp only [Option.bind_eq_bind, Option.bind_some] at called
  split at called
  · rw [callDepth, Contract.invoke_of_function? _ setSaleIsActive_function?] at called
    simp only [Contract.perform, Option.bind_eq_bind, Option.bind_eq_some_iff,
      Prod.exists] at called
    obtain ⟨locals, bound, flow, after, run, same⟩ := called
    cases same
    have argument : argumentOf "bool saleIsActive_" = some ("saleIsActive_", "bool") := by decide
    obtain ⟨given, _, rest, -, typed, later, rfl⟩ := bindArguments_cons argument bound
    cases given with
    | truth isOpen =>
      have sets : Stmt.Leads (s.scope message 1023)
          [.set Plan.saleIsActive (.ident "saleIsActive_")]
          (("saleIsActive_", .truth isOpen) :: rest)
          { store with balance := store.balance + message.value } fun _ store' =>
          store.Keeps store' ∧ store'.Holds { l with isOpen } := by
        refine Stmt.leads_set fun value first place second evaluated placed => ?_
        rw [Expr.eval_local (by decide) List.lookup_cons_self] at evaluated
        cases evaluated
        cases placed
        exact ⟨⟨rfl, rfl⟩, (holds.switchSale isOpen).of_eq rfl rfl⟩
      obtain ⟨-, -, kept, holds'⟩ := sets _ _ run
      exact ⟨kept, isOpen, holds'⟩
    | _ => simp [Value.hasType] at typed
  · cases called

/-- Through its whole life a contract keeps its tokens in order and its accounts within their
allowances. -/
theorem accounted_of_history (counts : s.plan.countsMints = true)
    (everybody : s.plan.onlyOwnerMints = false) {minted : Nat → Nat}
    (past : s.plan.contract.History store minted) :
    s.plan.Sound store ∧ ∃ l, store.Holds l ∧ s.plan.Accounted l minted := by
  induction past with
  | deployed message values fresh built =>
    obtain ⟨kept, allowed, holds⟩ := seeded_of_deploy counts fresh built
    exact ⟨(sound_of_deployed fresh.tokens fresh.counters).of_keeps kept, _, holds,
      Plan.Accounted.unused _ allowed⟩
  | mint message values value past called ih =>
    obtain ⟨sound, l, holds, accounted⟩ := ih
    obtain ⟨n, l', passes, holds', sound', created, split, length⟩ :=
      transact_mint_holds counts everybody sound holds called
    refine ⟨sound', l', holds', ?_⟩
    rw [split, List.length_append, Nat.add_sub_cancel, length]
    exact accounted.mint passes
  | switchSale message values value past called ih =>
    obtain ⟨sound, l, holds, accounted⟩ := ih
    obtain ⟨kept, isOpen, holds'⟩ := transact_setSaleIsActive_holds holds called
    exact ⟨sound.of_keeps kept, _, holds', accounted.switchSale isOpen⟩

theorem hasAllowlist_plan :
    s.plan.hasAllowlist = true ↔ s.ownerAllowance ≠ 0 ∨ s.allowances ≠ [] := by
  have zero : s.ownerAllowance.toNat = 0 ↔ s.ownerAllowance = 0 := by
    rw [← UInt32.toNat_inj]
    rfl
  simp [Plan.hasAllowlist, plan, zero]

theorem countsMints_plan :
    s.plan.countsMints = true ↔
      s.ownerAllowance ≠ 0 ∨ s.allowances ≠ [] ∨ s.walletLimit ≠ none := by
  have limited : s.plan.hasWalletLimit = true ↔ s.walletLimit ≠ none := by
    simp [Plan.hasWalletLimit, plan, Option.ne_none_iff_isSome]
  rw [Plan.countsMints, Bool.or_eq_true, hasAllowlist_plan, limited, or_assoc]

/-- Whatever the order in which accounts mint and the owner opens and closes the sale: nobody is
counted for more than the allowance or the wallet limit, with a wallet limit every token is counted,
and before the sale an account mints only what is left of its own allowance. -/
theorem mint_respects_allowances (s : Settings) (everybody : s.onlyOwnerMints = false)
    (counts : s.ownerAllowance ≠ 0 ∨ s.allowances ≠ [] ∨ s.walletLimit ≠ none)
    {store : Store} {minted : Nat → Nat} (past : s.plan.contract.History store minted) :
    ∃ l, store.Holds l ∧
      (s.walletLimit = none → ∀ a, l.counted a ≤ l.allowed a) ∧
      (s.ownerAllowance = 0 → s.allowances = [] → ∀ limit, s.walletLimit = some limit →
        ∀ a, l.counted a ≤ limit.toNat) ∧
      (∀ limit, s.walletLimit = some limit → ∀ a,
        l.counted a ≤ max (l.allowed a) limit.toNat ∧ l.counted a = minted a) ∧
      (l.isOpen = false → ∀ message values value store',
        s.plan.contract.transact message "mint" values store = some (value, store') →
        ∃ new : List Nat, store'.tokens = new ++ store.tokens ∧
          l.counted message.sender + new.length ≤ l.allowed message.sender) ∧
      (s.ownerAllowance = 0 → s.allowances = [] → l.isOpen = false → ∀ message values,
        s.plan.contract.transact message "mint" values store = none) := by
  have counts' := countsMints_plan.2 counts
  -- All bounds are read off the one account that every history keeps.
  obtain ⟨sound, l, holds, accounted⟩ := accounted_of_history counts' everybody past
  have unlisted (none : s.ownerAllowance = 0) (empty : s.allowances = []) :
      s.plan.hasAllowlist = false := by
    rw [← Bool.not_eq_true, hasAllowlist_plan]
    simp [none, empty]
  refine ⟨l, holds, fun unlimited a => ?_, fun none empty limit set a => ?_,
    fun limit set a => ⟨?_, accounted.exact ?_ a⟩,
    fun closed message values value store' called =>
      (transact_mint_closed counts' everybody sound holds closed called).2,
    fun none empty closed message values => ?_⟩
  · have listed : s.plan.hasAllowlist = true := by
      simpa [Plan.countsMints, Plan.hasWalletLimit, plan, unlimited] using counts'
    have within := accounted.within a
    rw [Plan.allowance, if_pos listed, if_pos rfl] at within
    simpa [plan, unlimited] using within
  · have within := accounted.within a
    rw [Plan.allowance, unlisted none empty] at within
    simpa [plan, set] using within
  · have within := accounted.within a
    unfold Plan.allowance at within
    split at within
    · simpa [plan, set] using within
    · have limited : l.counted a ≤ limit.toNat := by simpa [plan, set] using within
      exact Nat.le_trans limited (Nat.le_max_right _ _)
  · simp [plan, set]
  · cases called : s.plan.contract.transact message "mint" values store with
    | none => rfl
    | some result =>
      have listed := (transact_mint_closed counts' everybody sound holds closed called).1
      rw [unlisted none empty] at listed
      cases listed

/-- Everybody may mint two tokens, and the owner three before the sale. -/
def sampleAllowance : Settings where
  __ := blank
  batchLimit := some 3
  walletLimit := some 2
  ownerAllowance := 3

/-- A store in which nothing was minted and the sale is closed. -/
def closedSale : Store where
  balance := 0
  sent := []
  owner := 1
  tokens := []
  counters := fun _ => 0
  fields := fun _ => .truth false
  entries := fun _ _ => .number 0
  questions := 0

theorem fresh_closedSale : sampleAllowance.plan.contract.Fresh closedSale := by
  have initial : sampleAllowance.plan.contract.body.filterMap Member.initial? =
      [("saleIsActive", .truth false)] := by rfl
  refine ⟨rfl, fun _ => rfl, fun entry mem => ?_, fun _ _ _ => rfl⟩
  rw [initial] at mem
  rw [List.mem_singleton.1 mem]
  rfl

/-- The owner mints two tokens before the sale and another account two during the sale. -/
theorem mint_sampleAllowance :
    ∃ store minted, sampleAllowance.plan.contract.History store minted ∧
      store.tokens = [3, 2, 1, 0] ∧ minted 7 = 2 ∧
      ∃ l, store.Holds l ∧ l.counted 7 = 2 ∧ l.counted 7 ≤ max (l.allowed 7) 2 := by
  let c := sampleAllowance.plan.contract
  have life : (c.deploy ⟨1, 0, fun _ => .unit⟩ [.text "base"] closedSale).bind (fun a =>
      (c.transact ⟨1, 0, fun _ => .unit⟩ "mint" [.number 2] a).bind fun b =>
      (c.transact ⟨1, 0, fun _ => .unit⟩ "setSaleIsActive" [.truth true] b.2).bind fun d =>
      (c.transact ⟨7, 0, fun _ => .unit⟩ "mint" [.number 2] d.2).map fun e =>
        (d.2.tokens.length, e.2.tokens)) = some (2, [3, 2, 1, 0]) := by decide +kernel
  obtain ⟨a, built, life⟩ := Option.bind_eq_some_iff.1 life
  obtain ⟨b, early, life⟩ := Option.bind_eq_some_iff.1 life
  obtain ⟨d, switched, life⟩ := Option.bind_eq_some_iff.1 life
  obtain ⟨e, late, seen⟩ := Option.map_eq_some_iff.1 life
  obtain ⟨before, tokens⟩ := Prod.mk.inj seen
  have past : c.History e.2 _ :=
    .mint _ _ e.1 (.switchSale _ _ d.1 (.mint _ _ b.1 (.deployed _ _ fresh_closedSale built)
      early) switched) late
  obtain ⟨l, holds, -, -, limited, -⟩ :=
    mint_respects_allowances sampleAllowance rfl (.inl (by decide)) past
  obtain ⟨bounded, exact⟩ := limited 2 rfl 7
  have two : l.counted 7 = 2 := by
    rw [exact, tokens, before]
    rfl
  exact ⟨e.2, _, past, tokens, exact ▸ two, l, holds, two, bounded⟩

end Settings

end Mintage
