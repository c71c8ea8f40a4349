import Mintage.Proofs.Contract.Members
import Mintage.Proofs.Execution.Outcome

/-! The functions of a planned contract that its other functions call. -/
namespace Mintage

open Solidity

namespace Plan

variable {p : Plan} {name : String}

theorem notMem_payoutNames (other : ¬ "payoutAddress".toList <+: name.toList) :
    name ∉ p.payoutNames := by
  rw [payoutNames_eq_map]
  intro mem
  obtain ⟨number, -, rfl⟩ := List.mem_map.1 mem
  exact other ⟨(toString number).toList, by simp [payoutName]⟩

/-- A name is not declared if it is none of the known ones and not that of a receiver. -/
theorem notMem_declared (other : ¬ "payoutAddress".toList <+: name.toList)
    (unknown : name ∉ earlyNames ++ lateNames) : name ∉ p.contract.declared := by
  intro mem
  rcases List.mem_append.1 (p.declared_sublist.subset mem) with early | rest
  · exact unknown (List.mem_append_left _ early)
  rcases List.mem_append.1 rest with payout | late
  · split at payout
    · exact notMem_payoutNames other payout
    · cases payout
  · exact unknown (List.mem_append_right _ late)

/-- The functions that minting calls and that neither mint nor count tokens. -/
def silentNames : List String :=
  ["allowedMintCount", "updateMintCount", "max", "totalSupply", "_msgSender"]

/-- What `totalSupply` answers. -/
def supplyOf (p : Plan) (store : Store) : Nat :=
  if p.countsSupply then store.counters "supplyCounter" else store.tokens.length

end Plan

namespace Settings

variable (s : Settings)

/-- A function that is there under a condition is found exactly under this condition, since no name
is declared twice. -/
theorem function?_of_condition (f : Function) {condition : Bool}
    (present : condition = true → .declaration (.function f) ∈ s.plan.contract.body)
    (absent : condition = false → f.name ∉ s.plan.contract.declared) :
    s.plan.contract.function? f.name = if condition then some f else none := by
  cases condition with
  | true => exact s.function?_of_mem (present rfl)
  | false => exact s.function?_eq_none (absent rfl)

theorem allowedMintCount_function? :
    s.plan.contract.function? "allowedMintCount" =
      if s.plan.countsMints then
        some ⟨"allowedMintCount", ["address minter"], ["public", "view"], some "uint256",
          s.plan.allowedMintCount⟩
      else none := by
  have notPayout : "allowedMintCount" ∉ s.plan.payoutNames := Plan.notMem_payoutNames (by decide)
  refine s.function?_of_condition ⟨"allowedMintCount", _, _, _, _⟩ (fun counts => ?_) fun idle => ?_
  · simp [Plan.contract, Plan.body, Plan.allowlist, counts, Member.function]
  · simp [Plan.declared_contract, Plan.names, idle, notPayout]

theorem updateMintCount_function? :
    s.plan.contract.function? "updateMintCount" =
      if s.plan.countsMints then
        some ⟨"updateMintCount", ["address minter", "uint256 count"], ["private"], none,
          [.expr (.assign (Plan.minted Plan.minter) "+=" (.ident "count"))]⟩
      else none := by
  have notPayout : "updateMintCount" ∉ s.plan.payoutNames := Plan.notMem_payoutNames (by decide)
  refine s.function?_of_condition ⟨"updateMintCount", _, _, _, _⟩ (fun counts => ?_) fun idle => ?_
  · simp [Plan.contract, Plan.body, Plan.allowlist, counts, Member.function]
  · simp [Plan.declared_contract, Plan.names, idle, notPayout]

theorem max_function? :
    s.plan.contract.function? "max" =
      if s.plan.hasAllowlist && s.plan.hasWalletLimit then
        some ⟨"max", ["uint256 a", "uint256 b"], ["private", "pure"], some "uint256",
          [.returns (.ident "a >= b ? a : b")]⟩
      else none := by
  have notPayout : "max" ∉ s.plan.payoutNames := Plan.notMem_payoutNames (by decide)
  refine s.function?_of_condition ⟨"max", _, _, _, _⟩ (fun both => ?_) fun notBoth => ?_
  · have counts : s.plan.countsMints = true := by
      rw [Bool.and_eq_true] at both
      simp [Plan.countsMints, both.1]
    simp [Plan.contract, Plan.body, Plan.allowlist, counts, both, Plan.maximum, Member.function]
  · simp [Plan.declared_contract, Plan.names, notBoth, notPayout]

theorem totalSupply_function? :
    s.plan.contract.function? "totalSupply" =
      if s.plan.countsSupply then
        some ⟨"totalSupply", [], ["public", "view"], some "uint256",
          [.returns (Plan.counter.method "current" [])]⟩
      else none := by
  have notPayout : "totalSupply" ∉ s.plan.payoutNames := Plan.notMem_payoutNames (by decide)
  refine s.function?_of_condition ⟨"totalSupply", _, _, _, _⟩ (fun counts => ?_) fun idle => ?_
  · simp [Plan.contract, Plan.body, Plan.minting, counts, Member.function]
  · simp [Plan.declared_contract, Plan.names, idle, notPayout]

theorem undeclared_function? {name : String} (other : ¬ "payoutAddress".toList <+: name.toList)
    (unknown : name ∉ Plan.earlyNames ++ Plan.lateNames) :
    s.plan.contract.function? name = none :=
  s.function?_eq_none (Plan.notMem_declared other unknown)

/-- No function that minting calls mints or counts tokens itself. -/
theorem quiet_bodies (name : String) (mem : name ∈ Plan.silentNames) (f : Function)
    (found : s.plan.contract.function? name = some f) :
    Stmt.allQuiet Plan.silentNames f.body := by
  simp only [Plan.silentNames, List.mem_cons, List.not_mem_nil, or_false] at mem
  rcases mem with rfl | rfl | rfl | rfl | rfl
  · rw [allowedMintCount_function?] at found
    split at found
    · cases found
      simp only [Plan.allowedMintCount]
      split <;> rfl
    · cases found
  · rw [updateMintCount_function?] at found
    split at found
    · cases found
      rfl
    · cases found
  · rw [max_function?] at found
    split at found
    · cases found
      rfl
    · cases found
  · rw [totalSupply_function?] at found
    split at found
    · cases found
      rfl
    · cases found
  · rw [s.undeclared_function? (by decide) (by decide)] at found
    cases found

/-- What the functions of the contract refer to when calls may be nested so deep. -/
abbrev scope (message : Message) (depth : Nat) : Scope :=
  s.plan.contract.scope message (s.plan.contract.invoke message depth)

variable {s : Settings} {message : Message} {depth : Nat} {locals : Locals} {store : Store}

/-- What minting calls besides the base leaves the tokens and the counters alone. -/
theorem silences : (s.scope message depth).Silences Plan.silentNames :=
  s.plan.contract.invoke_quiet message s.quiet_bodies (by decide) depth

/-- The supply is answered by the counter, or by the base from its list of tokens. -/
theorem invoke_totalSupply :
    s.plan.contract.invoke message (depth + 1) "totalSupply" [] store =
      some (.number (s.plan.supplyOf store), store) := by
  have found := s.totalSupply_function?
  unfold Plan.supplyOf
  split
  · rename_i counts
    rw [if_pos counts] at found
    rw [Contract.invoke_of_function? _ found]
    rfl
  · rename_i listed
    rw [if_neg listed] at found
    have isBase : "ERC721Enumerable" ∈ s.plan.contract.bases := by
      have foundation : s.plan.foundation = .enumerable := by
        simpa [Plan.countsSupply, Foundation.countsTokens] using listed
      simp [Plan.contract, Plan.bases, foundation, Foundation.contract]
    rw [Contract.invoke_of_inherited _ found]
    simp only [Contract.inherited, if_pos isBase]

theorem eval_totalSupply :
    Plan.totalSupply.eval (s.scope message (depth + 1)) locals store =
      some (.number (s.plan.supplyOf store), store) := by
  have called : (s.scope message (depth + 1)).apply "totalSupply" [] store =
      some (.number (s.plan.supplyOf store), store) := by
    rw [← invoke_totalSupply]
    rfl
  simpa [Plan.totalSupply, Expr.apply, Expr.eval, Expr.evalAll] using called

theorem eval_sender (unbound : locals.lookup "msg.sender" = none) :
    s.plan.sender.eval (s.scope message (depth + 1)) locals store =
      some (.number message.sender, store) := by
  unfold Plan.sender
  split
  · have found : s.plan.contract.function? "_msgSender" = none :=
      s.undeclared_function? (by decide) (by decide)
    have called : (s.scope message (depth + 1)).apply "_msgSender" [] store =
        some (.number message.sender, store) := by
      have inherited := Contract.invoke_of_inherited _ found message depth [] store
      exact inherited
    simpa [Expr.apply, Expr.eval, Expr.evalAll] using called
  · simp [Expr.eval, Scope.read, Scope.named, Contract.scope, unbound,
      show Text.words "msg.sender" = ["msg.sender"] by decide]

/-- Minting a token is left to the base. -/
theorem eval_mint (unbound : locals.lookup "msg.sender" = none) {tokenId : Expr} {id : Nat}
    (number : tokenId.eval (s.scope message (depth + 1)) locals store =
      some (.number id, store)) :
    (s.plan.mint s.plan.sender tokenId).eval (s.scope message (depth + 1)) locals store =
      store.mint id := by
  have base (name : String) (isMint : name = "_mint" ∨ name = "_safeMint") :
      (s.scope message (depth + 1)).apply name [.number message.sender, .number id] store =
        store.mint id := by
    have found : s.plan.contract.function? name = none := by
      rcases isMint with rfl | rfl <;> exact s.undeclared_function? (by decide) (by decide)
    have inherited := Contract.invoke_of_inherited _ found message depth
      [.number message.sender, .number id] store
    rcases isMint with rfl | rfl <;> exact inherited
  unfold Plan.mint
  split
  · simpa [Expr.apply, Expr.eval, Expr.evalAll, eval_sender unbound, number]
      using base "_mint" (.inl rfl)
  · simpa [Expr.apply, Expr.eval, Expr.evalAll, eval_sender unbound, number]
      using base "_safeMint" (.inr rfl)

end Settings

end Mintage
