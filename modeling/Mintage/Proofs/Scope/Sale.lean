import Mintage.Proofs.Scope.Vocabulary

/-! The names in the sections that say who may mint and when. -/
namespace Mintage.Plan

open Solidity

variable {p : Plan} {g : Given} {fields locals : List String}

/-- The body of a function may use its arguments, its header may not. -/
theorem accounts_function {f : Function}
    (header : p.Accounts locals (argumentTypes f.arguments ++ f.modifiers.flatMap namesIn ++
      (f.result.map namesIn).getD []))
    (body : p.Accounts (argumentNames f.arguments ++ locals)
      (Stmt.blockNames ⟨g.fields, []⟩ f.body)) :
    p.Accounts locals (Member.names g (.declaration (.function f))) :=
  accounts_append.2 ⟨header, (accounts_filter _).2 body⟩

theorem accounts_field {type : String} {modifiers : List String} (name : String)
    (header : p.Accounts locals (namesIn type ++ modifiers.flatMap namesIn)) :
    p.Accounts locals (Member.names g (.field type modifiers name)) := by
  rw [Member.names_field]
  exact header

theorem accounts_fieldWith {type : String} (noAddress : type ≠ "address") {modifiers : List String}
    (name : String) {value : Expr} (plain : value.names ⟨g.fields, []⟩ = [])
    (header : p.Accounts locals (namesIn type ++ modifiers.flatMap namesIn)) :
    p.Accounts locals (Member.names g (.fieldWith type modifiers name value)) := by
  rw [Member.names_fieldWith noAddress, plain, List.append_nil]
  exact header

theorem accounts_constant (name : String) (value : Nat) :
    p.Accounts locals (Member.names g (.constant name value)) :=
  accounts_fieldWith (by decide) name rfl (accounts_of_shared [] rfl (by simp))

/-- Behind a forwarder the sender is asked for by a function of the base. -/
theorem accounts_sender : p.Accounts locals (p.sender.names g) := by
  unfold sender
  split
  · exact accounts_of_shared [] rfl (by simp)
  · exact accounts_of_shared [] rfl (by simp)

theorem accounts_owner : p.Accounts locals (p.owner.names g) := by
  unfold owner
  split
  · exact accounts_of_shared [] rfl (by simp)
  · exact accounts_of_shared [] rfl (by simp)

/-- In each of the four cases, what is read has been declared for just this case. -/
theorem accounts_saleChecks {count : Expr} (counts : p.Accounts locals (count.names g)) :
    p.Accounts locals (Stmt.blockNames g (p.saleChecks count)) := by
  have sale : "saleIsActive" ∈ p.available := by simp [available, names]
  have senderNames : p.Accounts locals (p.sender.names g) := accounts_sender
  have limits (limited : p.countsMints = true) :
      "allowedMintCount" ∈ p.available ∧ "updateMintCount" ∈ p.available := by
    simp [available, names, limited]
  unfold saleChecks
  split
  · exact accounts_of_shared ["saleIsActive"] rfl (by simp [sale])
  · rename_i has _
    simp (disch := decide) [accounts_block_cons, accounts_plain, accounts_shared, Expr.apply,
      counts, senderNames, requireSale, saleIsActive, sale, limits (by simp [countsMints, has])]
  · rename_i has _
    have refusal : p.Accounts locals ((Expr.ident
        "saleIsActive ? \"Minting limit exceeded\" : \"Sale not active\"").names g) :=
      accounts_of_shared ["saleIsActive"] rfl (by simp [sale])
    simp (disch := decide) [accounts_block_cons, accounts_plain, accounts_shared, Expr.apply,
      counts, senderNames, refusal, limits (by simp [countsMints, has])]
  · rename_i _ has
    simp (disch := decide) [accounts_block_cons, accounts_plain, accounts_shared, Expr.apply,
      counts, senderNames, requireSale, saleIsActive, sale, limits (by simp [countsMints, has])]

theorem accounts_allowedMintCount (counts : p.countsMints = true) :
    p.Accounts ("minter" :: locals) (Stmt.blockNames ⟨fields, []⟩ p.allowedMintCount) := by
  have maps : "mintCountMap" ∈ p.available ∧ "allowedMintCountMap" ∈ p.available := by
    simp [available, names, counts]
  have sale : "saleIsActive" ∈ p.available := by simp [available, names]
  unfold allowedMintCount
  split
  · rename_i has limited
    have both : "max" ∈ p.available ∧ "MINT_LIMIT_PER_WALLET" ∈ p.available := by
      simp [available, names, has, limited]
    simp (disch := decide) [accounts_block_cons, accounts_plain, accounts_shared, Expr.apply,
      remaining, allowed, minted, minter, walletLimitName, saleIsActive, maps, sale, both]
  · simp (disch := decide) [accounts_block_cons, accounts_plain, accounts_shared,
      remaining, allowed, minted, minter, maps]
  · rename_i none
    have limit : "MINT_LIMIT_PER_WALLET" ∈ p.available := by
      have limited : p.hasWalletLimit = true := by simpa [countsMints, none] using counts
      simp [available, names, limited]
    simp (disch := decide) [accounts_block_cons, accounts_plain, accounts_shared,
      remaining, minted, minter, walletLimitName, maps, limit]

/-- The accounts are declared together with the functions on them. -/
theorem accounts_allowlist : p.Accounts [] (p.allowlist.flatMap (Member.names g)) := by
  unfold allowlist
  split
  · rename_i counts
    refine accounts_flatMap fun m mem => ?_
    simp only [outline_cons, outline_nil, List.append_nil, List.mem_append, Part.mem_one,
      Part.mem_optional, Part.mem_when] at mem
    rcases mem with rfl | rfl | rfl | limit | ⟨both, rfl⟩ | rfl | rfl
    · exact accounts_nil
    · exact accounts_field _ (accounts_of_shared [] rfl (by simp))
    · exact accounts_field _ (accounts_of_shared [] rfl (by simp))
    · obtain ⟨value, -, rfl⟩ := Option.map_eq_some_iff.1 limit
      exact accounts_constant _ _
    · exact accounts_of_shared [] rfl (by simp)
    · exact accounts_function (accounts_of_shared [] rfl (by simp))
        (accounts_allowedMintCount counts)
    · exact accounts_of_shared ["mintCountMap"] rfl (by simp [available, names, counts])
  · exact accounts_nil

/-- A switch is declared together with its setter. -/
theorem accounts_activation : p.Accounts [] (p.activation.flatMap (Member.names g)) := by
  refine accounts_flatMap fun m mem => ?_
  simp only [activation, outline_cons, outline_nil, List.append_nil, List.mem_append,
    Part.mem_one, Part.mem_all] at mem
  rcases mem with rfl | rfl | rfl | control
  · exact accounts_nil
  · exact accounts_fieldWith (by decide) _ rfl (accounts_of_shared [] rfl (by simp))
  · exact accounts_of_shared ["saleIsActive"] rfl (by simp [available, names])
  · cases gated : p.gate with
    | none => simp [gated] at control
    | some gate =>
      simp only [gated, Option.map_some, Option.getD_some, Gate.controls, outline_cons, outline_nil,
        List.append_nil, List.mem_append, Part.mem_when] at control
      rcases control with ⟨switches, rfl⟩ | ⟨switches, rfl⟩ | ⟨moves, rfl⟩
      · exact accounts_fieldWith (by decide) _ rfl (accounts_of_shared [] rfl (by simp))
      · refine accounts_of_shared ["accessTokenIsActive"] rfl ?_
        simp [available, names, gated, switches]
      · refine accounts_of_shared ["accessToken", "IERC721"] rfl ?_
        simp [available, names, provided, gated]

end Mintage.Plan
