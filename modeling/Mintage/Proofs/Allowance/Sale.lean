import Mintage.Proofs.Allowance.Ledger

/-! What the checks of the sale let pass, and what they enter into the ledger. -/
namespace Mintage

open Solidity

/-- A mint of so many tokens passes the checks of the sale. Either it is within the allowance of
the account and counted, or the sale is open to everybody and nothing is counted. -/
inductive Plan.Passes (p : Plan) (l : Ledger) (account n : Nat) : Ledger → Prop where
  | counted (enough : l.counted account + n ≤ p.allowance l account)
    (started : p.hasAllowlist = false → l.isOpen = true) : Passes p l account n (l.count account n)
  | uncounted (started : l.isOpen = true) (unlimited : p.walletLimit = none) :
    Passes p l account n l

namespace Settings

variable {s : Settings} {message : Message} {depth : Nat} {locals : Locals}
  {store store' : Store} {l : Ledger} {n : Nat} {value : Value}

theorem holds_count (holds : store.Holds l) (account n : Nat) :
    ((Place.entry "mintCountMap" account).update (.number (l.counted account + n)) store).Holds
      (l.count account n) := by
  refine ⟨holds.isOpen, fun a => ?_, fun a => ?_, holds.fits⟩
  · by_cases same : a = account
    · simp [Place.update, Ledger.count, same]
    · simp [Place.update, Ledger.count, same, holds.counted]
  · simp [Place.update, Ledger.count, holds.allowed]

/-- The function `updateMintCount` counts the tokens of an account, unless the sum is too large. -/
theorem holds_of_updateMintCount (depth : Nat) (counts : s.plan.countsMints = true)
    (holds : store.Holds l)
    {account : Nat}
    (run : s.plan.contract.invoke message (depth + 1) "updateMintCount"
      [.number account, .number n] store = some (value, store')) :
    store'.Holds (l.count account n) := by
  have found := s.updateMintCount_function?
  rw [if_pos counts] at found
  rw [Contract.invoke_of_function? _ found] at run
  simp only [Contract.perform, Option.bind_eq_bind, Option.bind_eq_some_iff, Prod.exists] at run
  obtain ⟨locals, bound, flow, after, body, same⟩ := run
  cases same
  have locals_eq : locals = [("minter", .number account), ("count", .number n)] := by
    have first : argumentOf "address minter" = some ("minter", "address") := by decide
    have second : argumentOf "uint256 count" = some ("count", "uint256") := by decide
    obtain ⟨_, _, rest, values, -, later, rfl⟩ := bindArguments_cons first bound
    cases values
    obtain ⟨_, _, rest, values, -, later, rfl⟩ := bindArguments_cons second later
    cases values
    rw [bindArguments_nil later]
  have adds : Stmt.Leads (s.scope message depth)
      [.expr (.assign (Plan.minted Plan.minter) "+=" (.ident "count"))] locals store
      fun _ store' => store'.Holds (l.count account n) := by
    refine Stmt.leads_assign fun value first place second after evaluated placed added => ?_
    have count : (Expr.ident "count").eval (s.scope message depth) locals store =
        some (.number n, store) := Expr.eval_local (by decide) (by rw [locals_eq]; rfl)
    rw [count] at evaluated
    cases evaluated
    have entry : (Plan.minted Plan.minter).place (s.scope message depth) locals store =
        some (.entry "mintCountMap" account, store) := by
      have key : Plan.minter.eval (s.scope message depth) locals store =
          some (.number account, store) := Expr.eval_local (by decide) (by rw [locals_eq]; rfl)
      simp [Plan.minted, Expr.place, key]
    rw [entry] at placed
    cases placed
    obtain ⟨sum, combined, rfl⟩ := Option.map_eq_some_iff.1 added
    rw [Place.value, holds.counted, Value.combine?_number] at combined
    rw [eq_number_of_checked combined]
    exact holds_count holds account n
  exact (adds _ _ body).choose_spec.2

/-- The answer that a check reads is the difference, which is there only if it is not negative. -/
theorem of_eval_allowedMintCount (counts : s.plan.countsMints = true) (holds : store.Holds l)
    (ofMint : locals.OfMint)
    (run : (Expr.apply "allowedMintCount" [s.plan.sender]).eval (s.scope message (depth + 2)) locals
      store = some (value, store')) :
    l.counted message.sender ≤ s.plan.allowance l message.sender ∧ store' = store ∧
      value = .number (s.plan.allowance l message.sender - l.counted message.sender) := by
  have evaluated : Expr.evalAll (s.scope message (depth + 2)) locals [s.plan.sender] store =
      some ([.number message.sender], store) :=
    Expr.evalAll_cons (eval_sender (ofMint "msg.sender" (by decide))) rfl
  rw [Expr.eval_apply (by decide) evaluated] at run
  have called : s.plan.contract.invoke message (depth + 2) "allowedMintCount"
      [.number message.sender] store = some (value, store') := run
  rw [invoke_allowedMintCount counts holds] at called
  split at called
  · rename_i enough
    cases called
    exact ⟨enough, rfl, rfl⟩
  · cases called

/-- Whether so many tokens more are within the allowance of the caller. -/
theorem of_eval_within (counts : s.plan.countsMints = true) (holds : store.Holds l)
    (ofMint : locals.OfMint) {count : Expr}
    (number : count.eval (s.scope message (depth + 2)) locals store = some (.number n, store))
    {passed : Bool}
    (run : (Expr.binary (.apply "allowedMintCount" [s.plan.sender]) ">=" count).eval
      (s.scope message (depth + 2)) locals store = some (.truth passed, store')) :
    store' = store ∧
      (passed = true → l.counted message.sender + n ≤ s.plan.allowance l message.sender) := by
  obtain ⟨a, first, b, left, right, compared⟩ := Expr.of_eval_binary run
  obtain ⟨enough, same, rfl⟩ := of_eval_allowedMintCount counts holds ofMint left
  rw [same, number] at right
  cases right
  refine ⟨rfl, fun yes => ?_⟩
  subst yes
  have below : n ≤ s.plan.allowance l message.sender - l.counted message.sender := by
    simpa [arithmetic] using compared
  omega

theorem leads_recordMint (counts : s.plan.countsMints = true) (holds : store.Holds l)
    (ofMint : locals.OfMint) {count : Expr}
    (number : count.eval (s.scope message (depth + 2)) locals store = some (.number n, store)) :
    Stmt.Leads (s.scope message (depth + 2))
      [.expr (.apply "updateMintCount" [s.plan.sender, count])] locals store
      fun locals' store' => locals' = locals ∧ store'.Holds (l.count message.sender n) := by
  refine Stmt.leads_expr fun value store' run => ⟨rfl, ?_⟩
  have evaluated : Expr.evalAll (s.scope message (depth + 2)) locals [s.plan.sender, count] store =
      some ([.number message.sender, .number n], store) :=
    Expr.evalAll_cons (eval_sender (ofMint "msg.sender" (by decide)))
      (Expr.evalAll_cons number rfl)
  rw [Expr.eval_apply (by decide) evaluated] at run
  exact holds_of_updateMintCount (depth + 1) counts holds run

theorem leads_requireSale (holds : store.Holds l) (ofMint : locals.OfMint) :
    Stmt.Leads (s.scope message depth) [Plan.requireSale] locals store
      fun locals' store' => locals' = locals ∧ store' = store ∧ l.isOpen = true := by
  refine Stmt.leads_require fun store' run => ?_
  rw [eval_saleIsActive holds (ofMint "saleIsActive" (by decide))] at run
  simp only [Option.some.injEq, Prod.mk.injEq, Value.truth.injEq] at run
  exact ⟨rfl, run.2.symm, run.1⟩

/-- The checks of the sale, in each of the three ways in which a contract counts mints. -/
theorem leads_saleChecks (counts : s.plan.countsMints = true) (holds : store.Holds l)
    (ofMint : locals.OfMint) {count : Expr}
    (number : ∀ store, count.eval (s.scope message (depth + 2)) locals store =
      some (.number n, store)) :
    Stmt.Leads (s.scope message (depth + 2)) (s.plan.saleChecks count) locals store
      fun locals' store' => locals' = locals ∧
        ∃ l', s.plan.Passes l message.sender n l' ∧ store'.Holds l' := by
  unfold Plan.saleChecks
  -- Without a list the limit is checked and the mint counted. With a list and no limit, who is not
  -- served from the list mints uncounted in the open sale; with both, nobody else may mint.
  cases listed : s.plan.hasAllowlist with
  | false =>
    cases limited : s.plan.hasWalletLimit with
    | false => simp [Plan.countsMints, listed, limited] at counts
    | true =>
      refine Stmt.Leads.cons (leads_requireSale holds ofMint) ?_
      rintro locals' first ⟨same, here, started⟩
      rw [same, here]
      have within : Stmt.Leads (s.scope message (depth + 2))
          [.require (.binary (.apply "allowedMintCount" [s.plan.sender]) ">=" count)
            "Minting limit exceeded"] locals store fun locals' store' =>
          locals' = locals ∧ store' = store ∧
            l.counted message.sender + n ≤ s.plan.allowance l message.sender := by
        refine Stmt.leads_require fun store' run => ?_
        obtain ⟨same, enough⟩ := of_eval_within counts holds ofMint (number store) run
        exact ⟨rfl, same, enough rfl⟩
      refine Stmt.Leads.cons within ?_
      rintro locals' second ⟨same, here, enough⟩
      rw [same, here]
      refine (leads_recordMint counts holds ofMint (number store)).mono ?_
      rintro locals' store' ⟨same, holds'⟩
      exact ⟨same, _, .counted enough fun _ => started, holds'⟩
  | true =>
    have counted {first : Store} (same : first = store)
        (enough : l.counted message.sender + n ≤ s.plan.allowance l message.sender) :
        Stmt.Leads (s.scope message (depth + 2))
          [.expr (.apply "updateMintCount" [s.plan.sender, count])] locals first
          fun _ store' => locals = locals ∧
            ∃ l', s.plan.Passes l message.sender n l' ∧ store'.Holds l' := by
      rw [same]
      refine (leads_recordMint counts holds ofMint (number store)).mono ?_
      rintro locals' store' ⟨-, holds'⟩
      exact ⟨rfl, _, .counted enough (by simp [listed]), holds'⟩
    cases limited : s.plan.hasWalletLimit with
    | false =>
      refine Stmt.leads_cond fun passed first run => ?_
      obtain ⟨same, enough⟩ := of_eval_within counts holds ofMint (number store) run
      cases passed with
      | true => exact counted same (enough rfl)
      | false =>
        rw [same]
        refine (leads_requireSale holds ofMint).mono ?_
        rintro locals' store' ⟨-, here, started⟩
        refine ⟨rfl, l, .uncounted started ?_, here ▸ holds⟩
        simpa [Plan.hasWalletLimit] using limited
    | true =>
      refine Stmt.leads_cond fun passed first run => ?_
      obtain ⟨same, enough⟩ := of_eval_within counts holds ofMint (number store) run
      cases passed with
      | true => exact counted same (enough rfl)
      | false =>
        refine Stmt.leads_expr fun value store' run => ?_
        simp [Expr.apply, Expr.eval] at run

end Settings

end Mintage
