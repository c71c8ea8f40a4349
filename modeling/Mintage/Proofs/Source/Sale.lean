import Mintage.Contract.Minting
import Mintage.Proofs.Solidity.Sound

/-! The pieces of source in the sections on the sale and on minting are sound. -/
namespace Mintage

open Solidity

/-- The owner's controls of the access token have fixed names. -/
theorem Gate.sound_controls (gate : Gate) : AllSound (gate.controls.flatMap Member.pieces) := by
  simp only [controls, outline_cons, outline_nil, List.append_nil, List.flatMap_append,
    sound_append, sound_when]
  exact ⟨fun _ => by decide, fun _ => by decide, fun _ => by decide⟩

theorem Gate.sound_guarded (gate : Gate) {check : Stmt} (sound : AllSound check.pieces) :
    AllSound (gate.guarded check).pieces := by
  unfold guarded
  split
  · have switch : AllSound (Expr.ident isActive).pieces := by decide
    simp [switch, sound]
  · exact sound

namespace Plan

variable {p : Plan}

theorem sound_owner : AllSound p.owner.pieces := by
  unfold owner
  split <;> decide

theorem sound_sender : AllSound p.sender.pieces := by
  unfold sender
  split <;> decide

/-- The switches of the sale are sound, together with those of the access token. -/
theorem sound_activation : AllSound (p.activation.flatMap Member.pieces) := by
  simp only [activation, outline_cons, outline_nil, List.append_nil, List.flatMap_append,
    sound_append, sound_one, sound_all]
  refine ⟨by decide, ?_, by decide, ?_⟩
  · simp (disch := decide)
  · cases p.gate with
    | none => exact sound_nil
    | some gate => exact gate.sound_controls

theorem sound_allowedMintCount : AllSound (p.allowedMintCount.flatMap Stmt.pieces) := by
  unfold allowedMintCount
  split <;> decide

/-- Only numbers go from the settings into the accounts of mints, so nothing is asked of the
plan. -/
theorem sound_allowlist : AllSound (p.allowlist.flatMap Member.pieces) := by
  unfold allowlist
  split
  · simp only [outline_cons, outline_nil, List.append_nil, List.flatMap_append, sound_append,
      sound_one, sound_optional, sound_when, Option.map_eq_some_iff]
    refine ⟨by decide, by decide, by decide, ?_, fun _ => by decide,
      ?_, by decide⟩
    · rintro _ ⟨limit, -, rfl⟩
      exact Member.sound_constant (by decide) limit
    · exact (Member.sound_function (by decide)).2 sound_allowedMintCount
  · exact sound_nil

/-- The addresses with an allowance are written as they are in the settings, and have to be
plain. -/
theorem sound_initialAllowances
    (plain : ∀ a ∈ p.allowances, Text.isPlainText a.1 = true) :
    AllSound (p.initialAllowances.flatMap Stmt.pieces) := by
  simp only [initialAllowances, outline_cons, outline_nil, List.append_nil, List.flatMap_append,
    sound_append, sound_when, sound_all, List.flatMap_map]
  have map : AllSound (Expr.ident "allowedMintCountMap").pieces := by decide
  refine ⟨fun _ => ?_, sound_flatMap fun a listed => ?_⟩
  · simp [allowed, map, sound_owner]
  · simp [allowed, map, Expr.sound_ident (isSound_of_isPlainText (plain a listed))]

/-- Whatever the count of a call is written as, the checks around it are sound in all four cases. -/
theorem sound_saleChecks {count : Expr} (sound : AllSound count.pieces) :
    AllSound ((p.saleChecks count).flatMap Stmt.pieces) := by
  have active : AllSound saleIsActive.pieces := by decide
  have refusal : AllSound (Expr.ident
      "saleIsActive ? \"Minting limit exceeded\" : \"Sale not active\"").pieces := by
    decide
  unfold saleChecks
  split <;> simp (disch := decide) [requireSale, active, refusal, sound_sender, sound]

theorem sound_mintCount : AllSound p.mintCount.pieces := by
  unfold mintCount
  split <;> decide

theorem sound_batchChecks : AllSound (p.batchChecks.flatMap Stmt.pieces) := by
  have bound : AllSound (Expr.binary (.ident "count") "<=" (.ident "MAX_MULTIMINT")).pieces := by
    decide
  unfold batchChecks
  split
  · exact sound_nil
  · simp only [outline_cons, outline_nil, List.append_nil, List.flatMap_append, sound_append,
      sound_one, sound_when, Stmt.sound_require]
    exact ⟨fun _ => by decide, bound⟩

theorem sound_supplyCheck : AllSound p.supplyCheck.pieces := by
  have several : AllSound (Expr.binary totalSupply "+" p.mintCount).pieces := by
    have total : AllSound totalSupply.pieces := by decide
    simp (disch := decide) [total, sound_mintCount]
  have bound : AllSound (Expr.ident "MAX_SUPPLY").pieces := by decide
  unfold supplyCheck
  split
  · simp (disch := decide) [several, bound]
  · rw [Stmt.sound_require]
    decide

/-- A price is a number, and the message with its text is a literal. -/
theorem sound_paymentCheck (price : Price) : AllSound (p.paymentCheck price).pieces := by
  have value : AllSound (Expr.ident "msg.value").pieces := by decide
  have each : AllSound (Expr.ident "PRICE").pieces := by decide
  unfold paymentCheck
  split <;> simp (disch := decide) [value, each, sound_mintCount]

theorem sound_storeParameters {tokenId : Expr} (sound : AllSound tokenId.pieces) :
    AllSound ((p.storeParameters tokenId).flatMap Stmt.pieces) := by
  have map : AllSound (Expr.ident Parameter.map).pieces := by decide
  have value : AllSound (Expr.ident "parameters").pieces := by decide
  unfold storeParameters
  split
  · simp [Parameter.stored, map, value, sound]
  · exact sound_nil

theorem sound_mint {tokenId : Expr} (sound : AllSound tokenId.pieces) :
    AllSound (p.mint p.sender tokenId).pieces := by
  unfold mint
  split <;> simp (disch := decide) [sound_sender, sound]

theorem sound_countToken : AllSound (p.countToken.flatMap Stmt.pieces) := by
  unfold countToken
  split
  · decide
  · exact sound_nil

theorem sound_ownsThis {gate : Gate} {tokenId : Expr} (sound : AllSound tokenId.pieces) :
    AllSound (gate.ownsThis p.sender tokenId).pieces := by
  have token : AllSound Gate.token.pieces := by decide
  refine gate.sound_guarded ?_
  simp (disch := decide) [token, sound_sender, sound]

theorem sound_ownsSome (gate : Gate) : AllSound (gate.ownsSome p.sender).pieces := by
  have token : AllSound Gate.token.pieces := by decide
  refine gate.sound_guarded ?_
  simp (disch := decide) [token, sound_sender]

/-- The bound of a picked number is one of two constants. -/
theorem sound_boundCheck {bound : String} (same : p.tokenIdBound = some bound) :
    AllSound (Expr.binary (.ident "id") "<" (.ident bound)).pieces := by
  unfold tokenIdBound at same
  split at same
  · cases same
    decide
  split at same
  · cases same
    decide
  · cases same

/-- One mint is sound, whether the minter picks the number or takes the next one. -/
theorem sound_mintOne : AllSound (p.mintOne.flatMap Stmt.pieces) := by
  have total : AllSound totalSupply.pieces := by decide
  have id : AllSound (Expr.ident "id").pieces := by decide
  unfold mintOne
  split
  · simp only [mintPicked, outline_cons, outline_nil, List.append_nil, List.flatMap_append,
      sound_append, sound_one, sound_when, sound_optional, sound_all, Option.map_eq_some_iff,
      Stmt.sound_expr]
    refine ⟨fun _ => by decide, ?_, ?_, sound_storeParameters id, sound_mint id,
      sound_countToken⟩
    · rintro _ ⟨gate, -, rfl⟩
      exact sound_ownsThis id
    · rintro _ ⟨bound, same, rfl⟩
      exact (Stmt.sound_require _).2 (sound_boundCheck same)
  · simp only [mintNext, outline_cons, outline_nil, List.append_nil, List.flatMap_append,
      sound_append, sound_one, sound_all, Stmt.sound_expr]
    exact ⟨sound_storeParameters total, sound_mint total, sound_countToken⟩

/-- The body of the minting function is sound in all its forms: each check is there or not, and the
mint stands in a loop or alone. -/
theorem sound_mintBody : AllSound (p.mintBody.flatMap Stmt.pieces) := by
  simp only [mintBody, outline_cons, outline_nil, List.append_nil, List.flatMap_append,
    sound_append, sound_optional, sound_all]
  refine ⟨sound_batchChecks, ?_, ?_, ?_, ?_, ?_⟩
  · split
    · exact sound_nil
    · exact sound_saleChecks sound_mintCount
  · intro check same
    split at same
    · cases same
    · obtain ⟨gate, -, rfl⟩ := Option.map_eq_some_iff.1 same
      exact sound_ownsSome gate
  · intro check same
    obtain ⟨limit, -, rfl⟩ := Option.map_eq_some_iff.1 same
    exact sound_supplyCheck
  · intro check same
    obtain ⟨price, -, rfl⟩ := Option.map_eq_some_iff.1 same
    exact sound_paymentCheck price
  · split
    · have clauses : AllSound (["uint256 i = 0", "i < count", "i++"].map (Role.code, ·)) := by
        decide
      have loop : AllSound (Stmt.loop "uint256 i = 0" "i < count" "i++" p.mintOne).pieces := by
        rw [Stmt.pieces, Stmt.allPieces_eq_flatMap]
        exact sound_append.2 ⟨clauses, sound_mintOne⟩
      simpa using loop
    · exact sound_mintOne

/-- The arguments and modifiers of `mint`. -/
theorem sound_mintHeader :
    AllSound (("mint" :: p.mintArguments).map (Role.code, ·) ++
      p.mintModifiers.map (Role.phrase, ·) ++
      (none : Option String).toList.map (Role.code, ·)) := by
  have arguments : AllSound (("mint" :: p.mintArguments).map (Role.code, ·)) := by
    unfold mintArguments
    cases p.minterPicksIds <;> cases p.mintsSeveral <;> cases p.hasParameters <;> decide
  have modifiers : AllSound (p.mintModifiers.map (Role.phrase, ·)) := by
    unfold mintModifiers
    cases p.price.isSome <;> cases p.onlyOwnerMints <;> decide
  exact sound_append.2 ⟨sound_append.2 ⟨arguments, modifiers⟩, sound_nil⟩

/-- The section on minting takes nothing from the settings but numbers, hence no hypothesis. -/
theorem sound_minting : AllSound (p.minting.flatMap Member.pieces) := by
  simp only [minting, outline_cons, outline_nil, List.append_nil, List.flatMap_append,
    sound_append, sound_one, sound_optional, sound_when, Option.map_eq_some_iff]
  refine ⟨by decide, ?_, ?_, ?_, ?_, ?_, fun _ => by decide,
    (Member.sound_function sound_mintHeader).2 sound_mintBody, fun _ => by decide⟩
  · rintro _ ⟨⟨switches, moves⟩, -, rfl⟩
    cases switches <;> cases moves <;> decide
  · rintro _ ⟨limit, -, rfl⟩
    exact Member.sound_constant (by decide) limit
  · rintro _ ⟨limit, -, rfl⟩
    exact Member.sound_constant (by decide) limit
  · rintro _ ⟨price, -, rfl⟩
    exact Member.sound_constant (by decide) price.wei
  · rintro _ ⟨limit, -, rfl⟩
    exact Member.sound_constant (by decide) limit

end Plan

end Mintage
