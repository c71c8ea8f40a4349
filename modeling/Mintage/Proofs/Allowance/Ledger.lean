import Mintage.Proofs.Minting.Call

/-! What a contract keeps on the accounts that mint, and how it answers from it how many tokens an
account may mint. -/
namespace Mintage

open Solidity

/-- Whether the sale is open, for how many tokens each account was counted, and how many it may
mint before the sale. -/
structure Ledger where
  isOpen : Bool
  counted : Nat → Nat
  allowed : Nat → Nat

namespace Ledger

/-- The account has minted so many tokens more. -/
def count (l : Ledger) (account n : Nat) : Ledger :=
  { l with counted := fun a => l.counted a + if a = account then n else 0 }

end Ledger

/-- The ledger is what the variables of the contract say. -/
structure Solidity.Store.Holds (store : Store) (l : Ledger) : Prop where
  isOpen : store.fields "saleIsActive" = .truth l.isOpen
  counted : ∀ a, store.entries "mintCountMap" a = .number (l.counted a)
  allowed : ∀ a, store.entries "allowedMintCountMap" a = .number (l.allowed a)
  fits : ∀ a, l.allowed a < wordBound

/-- Nothing else of a store matters. -/
theorem Solidity.Store.Holds.of_eq {store store' : Store} {l : Ledger} (holds : store.Holds l)
    (fields : store'.fields = store.fields) (entries : store'.entries = store.entries) :
    store'.Holds l :=
  ⟨fields ▸ holds.isOpen, entries ▸ holds.counted, entries ▸ holds.allowed, holds.fits⟩

/-- How many tokens an account may mint altogether: its allowance, and the wallet limit while the
sale is open or if nobody has an allowance. -/
def Plan.allowance (p : Plan) (l : Ledger) (account : Nat) : Nat :=
  if p.hasAllowlist then
    if l.isOpen then max (l.allowed account) (p.walletLimit.getD 0) else l.allowed account
  else p.walletLimit.getD 0

namespace Settings

variable {s : Settings} {message : Message} {depth : Nat} {locals : Locals} {store : Store}
  {l : Ledger}

theorem eval_saleIsActive (holds : store.Holds l) (unbound : locals.lookup "saleIsActive" = none) :
    Plan.saleIsActive.eval (s.scope message depth) locals store =
      some (.truth l.isOpen, store) := by
  have mem : Member.fieldWith "bool" ["public"] "saleIsActive" (.bool s.plan.startsActive) ∈
      s.plan.contract.body := by
    simp [Plan.contract, Plan.body, Plan.activation]
  have varies : s.plan.contract.constants.lookup "saleIsActive" = none :=
    s.constant_eq_none_of_mem mem (by simp)
  rw [← holds.isOpen]
  exact Expr.eval_field (by decide) unbound (by decide) varies

theorem eval_walletLimit {limit : Nat} (set : s.plan.walletLimit = some limit)
    (unbound : locals.lookup Plan.walletLimitName = none) :
    (Expr.ident Plan.walletLimitName).eval (s.scope message depth) locals store =
      some (.number limit, store) := by
  have counts : s.plan.countsMints = true := by simp [Plan.countsMints, Plan.hasWalletLimit, set]
  have mem : .constant Plan.walletLimitName limit ∈ s.plan.contract.body := by
    simp [Plan.contract, Plan.body, Plan.allowlist, counts, set]
  exact eval_constant_of_mem mem (by decide) (by decide) unbound

/-- The limit is a word of 32 bits in the settings, so it is a number of the machine. -/
theorem walletLimit_lt {limit : Nat} (set : s.plan.walletLimit = some limit) :
    limit < wordBound := by
  obtain ⟨n, -, rfl⟩ := Option.map_eq_some_iff.1 set
  have small := n.toNat_lt
  unfold wordBound
  omega

theorem invoke_max (both : (s.plan.hasAllowlist && s.plan.hasWalletLimit) = true) {a b : Nat}
    (fitsA : a < wordBound) (fitsB : b < wordBound) :
    s.plan.contract.invoke message (depth + 1) "max" [.number a, .number b] store =
      some (.number (max a b), store) := by
  have found := s.max_function?
  rw [if_pos both] at found
  have bound : bindArguments ["uint256 a", "uint256 b"] [.number a, .number b] =
      some [("a", .number a), ("b", .number b)] := by
    have first : argumentOf "uint256 a" = some ("a", "uint256") := by decide
    have second : argumentOf "uint256 b" = some ("b", "uint256") := by decide
    simp [bindArguments, first, second, Value.hasType, fitsA, fitsB]
  have words : Text.words "a >= b ? a : b" = ["a", ">=", "b", "?", "a", ":", "b"] := by decide
  rw [Contract.invoke_of_function? _ found]
  simp only [Contract.perform, bound, Stmt.returns, Stmt.execAll, Stmt.exec, Expr.eval, Scope.read,
    words, Scope.named]
  by_cases le : b ≤ a
  · simp [le, List.lookup_cons, arithmetic, Flow.value]
  · simp [le, List.lookup_cons, arithmetic, Flow.value]
    omega

/-- The locals of the functions that are asked about an account. -/
def askedAbout (account : Nat) : Locals := [("minter", .number account)]

theorem eval_minter (account : Nat) {scope : Scope} :
    Plan.minter.eval scope (askedAbout account) store = some (.number account, store) :=
  Expr.eval_local (by decide) rfl

/-- What remains is the allowance without what is counted, and the subtraction fails below zero. -/
theorem execAll_remaining (holds : store.Holds l) {account n : Nat} {allowance : Expr}
    {scope : Scope}
    (number : allowance.eval scope (askedAbout account) store = some (.number n, store)) :
    Stmt.execAll scope [Plan.remaining allowance] (askedAbout account) store =
      if l.counted account ≤ n then some (.done (.number (n - l.counted account)), store)
      else none := by
  have counted : (Plan.minted Plan.minter).eval scope (askedAbout account) store =
      some (.number (l.counted account), store) := by
    rw [← holds.counted]
    exact Expr.eval_entry rfl (eval_minter account)
  rw [Stmt.execAll_singleton, Plan.remaining, Stmt.returns, Stmt.exec,
    Expr.eval_binary "-" number counted, Value.combine?_number]
  by_cases enough : l.counted account ≤ n <;> simp [arithmetic, enough]

theorem eval_allowed (holds : store.Holds l) (account : Nat) {scope : Scope} :
    (Plan.allowed Plan.minter).eval scope (askedAbout account) store =
      some (.number (l.allowed account), store) := by
  rw [← holds.allowed]
  exact Expr.eval_entry rfl (eval_minter account)

/-- Whoever has more by the wallet limit may use it in place of an allowance. -/
theorem eval_max (both : (s.plan.hasAllowlist && s.plan.hasWalletLimit) = true)
    (holds : store.Holds l) (account : Nat) {limit : Nat}
    (set : s.plan.walletLimit = some limit) :
    (Expr.apply "max" [Plan.allowed Plan.minter, .ident Plan.walletLimitName]).eval
        (s.scope message (depth + 1)) (askedAbout account) store =
      some (.number (max (l.allowed account) limit), store) := by
  have called : (s.scope message (depth + 1)).apply "max"
      [.number (l.allowed account), .number limit] store =
        some (.number (max (l.allowed account) limit), store) := by
    rw [← invoke_max both (holds.fits account) (walletLimit_lt set)]
    rfl
  have evaluated : Expr.evalAll (s.scope message (depth + 1)) (askedAbout account)
      [Plan.allowed Plan.minter, .ident Plan.walletLimitName] store =
        some ([.number (l.allowed account), .number limit], store) :=
    Expr.evalAll_cons (eval_allowed holds account)
      (Expr.evalAll_cons (eval_walletLimit set rfl) rfl)
  rw [Expr.eval_apply (by decide) evaluated, called]

/-- The function `allowedMintCount` answers what is left of the allowance of an account, and fails
if the account was counted for more. -/
theorem invoke_allowedMintCount (counts : s.plan.countsMints = true) (holds : store.Holds l)
    (account : Nat) :
    s.plan.contract.invoke message (depth + 2) "allowedMintCount" [.number account] store =
      if l.counted account ≤ s.plan.allowance l account then
        some (.number (s.plan.allowance l account - l.counted account), store)
      else none := by
  have found := s.allowedMintCount_function?
  rw [if_pos counts] at found
  have bound : bindArguments ["address minter"] [.number account] = some (askedAbout account) := rfl
  have body : Stmt.execAll (s.scope message (depth + 1)) s.plan.allowedMintCount
      (askedAbout account) store =
        if l.counted account ≤ s.plan.allowance l account then
          some (.done (.number (s.plan.allowance l account - l.counted account)), store)
        else none := by
    unfold Plan.allowedMintCount Plan.allowance
    cases listed : s.plan.hasAllowlist with
    | false =>
      obtain ⟨limit, set⟩ : ∃ limit, s.plan.walletLimit = some limit := by
        simpa [Plan.countsMints, listed, Plan.hasWalletLimit, Option.isSome_iff_exists] using counts
      simpa [set] using execAll_remaining holds (eval_walletLimit set rfl)
    | true =>
      cases limited : s.plan.walletLimit with
      | none =>
        simpa [Plan.hasWalletLimit, limited] using
          execAll_remaining holds (eval_allowed holds account)
      | some limit =>
        have both : (s.plan.hasAllowlist && s.plan.hasWalletLimit) = true := by
          simp [listed, Plan.hasWalletLimit, limited]
        simp only [Plan.hasWalletLimit, limited, Option.isSome_some]
        have test :
            Plan.saleIsActive.eval (s.scope message (depth + 1)) (askedAbout account) store =
            some (.truth l.isOpen, store) := eval_saleIsActive holds rfl
        rw [Stmt.execAll, Stmt.exec_cond test]
        cases l.isOpen with
        | false =>
          simpa [Stmt.execAlternative, Flow.leave] using
            execAll_remaining holds (eval_allowed holds account)
        | true =>
          rw [if_pos rfl, execAll_remaining holds (eval_max both holds account limited)]
          by_cases enough : l.counted account ≤ max (l.allowed account) limit <;>
            simp [enough, Flow.leave]
  rw [Contract.invoke_of_function? _ found]
  simp only [Contract.perform, bound, Option.bind_eq_bind, Option.bind_some]
  rw [show Stmt.execAll (s.plan.contract.scope message (s.plan.contract.invoke message (depth + 1)))
    s.plan.allowedMintCount (askedAbout account) store = _ from body]
  split <;> rfl

end Settings

end Mintage
