import Mintage.Contract.Assembly
import Mintage.Proofs.Outline
import Mintage.Proofs.Solidity.Formatting

/-! The source of a contract is formatted if the names of the parameters and the addresses that
receive allowances stay in one line. -/
namespace Mintage

open Layout Solidity Text

/-- A check behind a switch is neat if the check is. -/
theorem Gate.neat_guarded (gate : Gate) {check : Stmt} (neat : check.isNeat = true) :
    (gate.guarded check).isNeat = true := by
  unfold guarded
  split
  · simp +decide [neat]
  · exact neat

theorem Gate.neat_field (gate : Gate) : gate.field.isNeat = true := by
  unfold field
  split <;> decide

theorem Gate.neat_controls (gate : Gate) : gate.controls.all Member.isNeat = true := by
  simp +decide [controls]

namespace Plan

variable {p : Plan}

/-- A constant that is there only if the settings give it a value. -/
theorem neat_limit {name : String} (level : isLevel name = true) (limit : Option Nat) :
    (limit.map (Member.constant name)).all Member.isNeat = true := by
  cases limit <;> simp [level]

theorem neat_owner : p.owner.isNeat = true := by
  unfold owner
  split <;> decide

theorem neat_sender : p.sender.isNeat = true := by
  unfold sender
  split <;> decide

theorem neat_mintCount : p.mintCount.isNeat = true := by
  unfold mintCount
  split <;> decide

theorem neat_activation : p.activation.all Member.isNeat = true := by
  cases gate : p.gate with
  | none => simp +decide [activation, gate]
  | some gate' => simp +decide [activation, gate, gate'.neat_controls]

theorem neat_allowedMintCount : p.allowedMintCount.all Stmt.isNeat = true := by
  unfold allowedMintCount
  split <;> decide

theorem neat_allowlist : p.allowlist.all Member.isNeat = true := by
  unfold allowlist
  split
  · simp +decide [neat_allowedMintCount, neat_limit]
  · rfl

/-- The addresses with an allowance are written as they are in the settings, and have to stay in one
line. -/
theorem neat_initialAllowances (level : ∀ a ∈ p.allowances, isLevel a.1 = true) :
    p.initialAllowances.all Stmt.isNeat = true := by
  have each (a : String × Nat) (mem : a ∈ p.allowances) :
      (Stmt.set (allowed (.ident a.1)) (.nat a.2)).isNeat = true := by
    have short : (Expr.ident a.1).isShort = true := level a mem
    simp +decide [allowed, short]
  have own : (Stmt.set (allowed p.owner) (.nat p.ownerAllowance)).isNeat = true := by
    simp +decide [allowed, neat_owner]
  simpa [initialAllowances, own] using each

/-- The checks of a sale are neat in all four cases, whatever the count of a call is written as. -/
theorem neat_saleChecks {count : Expr} (neat : count.isNeat = true) :
    (p.saleChecks count).all Stmt.isNeat = true := by
  unfold saleChecks
  split <;> simp +decide [requireSale, saleIsActive, neat_sender, neat]

theorem neat_batchChecks : p.batchChecks.all Stmt.isNeat = true := by
  unfold batchChecks
  split
  · rfl
  · simp +decide

theorem neat_supplyCheck : p.supplyCheck.isNeat = true := by
  unfold supplyCheck
  split <;> simp +decide [totalSupply, neat_mintCount]

theorem neat_paymentCheck (price : Price) : (p.paymentCheck price).isNeat = true := by
  unfold paymentCheck
  split <;> simp +decide [neat_mintCount]

theorem neat_storeParameters {tokenId : Expr} (neat : tokenId.isNeat = true) :
    (p.storeParameters tokenId).all Stmt.isNeat = true := by
  unfold storeParameters
  split
  · simp +decide [Parameter.stored, neat]
  · rfl

theorem neat_mint {tokenId : Expr} (neat : tokenId.isNeat = true) :
    (p.mint p.sender tokenId).isNeat = true := by
  unfold mint
  split <;> simp +decide [neat_sender, neat]

theorem neat_countToken : p.countToken.all Stmt.isNeat = true := by
  unfold countToken
  split <;> decide

theorem neat_ownsThis (gate : Gate) {tokenId : Expr} (neat : tokenId.isNeat = true) :
    (gate.ownsThis p.sender tokenId).isNeat = true := by
  refine gate.neat_guarded ?_
  simp +decide [Gate.token, neat_sender, neat]

theorem neat_ownsSome (gate : Gate) : (gate.ownsSome p.sender).isNeat = true := by
  refine gate.neat_guarded ?_
  simp +decide [Gate.token, neat_sender]

/-- One mint is neat, whether the minter picks the number or takes the next one. -/
theorem neat_mintOne : p.mintOne.all Stmt.isNeat = true := by
  have total : totalSupply.isNeat = true := by decide
  have id : (Expr.ident "id").isNeat = true := by decide
  have rule : (p.gate.map fun gate => gate.ownsThis p.sender (.ident "id")).all Stmt.isNeat =
      true := by
    cases p.gate with
    | none => rfl
    | some gate => exact neat_ownsThis gate id
  have bound : (p.tokenIdBound.map fun bound => Stmt.require
      (.binary (.ident "id") "<" (.ident bound)) "Invalid token id").all Stmt.isNeat = true := by
    unfold tokenIdBound
    split
    · decide
    split <;> decide
  unfold mintOne
  split
  · simp +decide [mintPicked, rule, bound, neat_storeParameters id, neat_mint id, neat_countToken]
  · simp +decide [mintNext, neat_storeParameters total, neat_mint total, neat_countToken]

/-- The body of the minting function is neat in all its forms. -/
theorem neat_mintBody : p.mintBody.all Stmt.isNeat = true := by
  have sale : (if p.onlyOwnerMints then [] else p.saleChecks p.mintCount).all Stmt.isNeat =
      true := by
    split
    · rfl
    · exact neat_saleChecks neat_mintCount
  have rule : (if p.minterPicksIds then none
      else p.gate.map fun gate => gate.ownsSome p.sender).all Stmt.isNeat = true := by
    split
    · rfl
    · cases p.gate with
      | none => rfl
      | some gate => exact neat_ownsSome gate
  have supply : (p.supply.map fun _ => p.supplyCheck).all Stmt.isNeat = true := by
    cases p.supply with
    | none => rfl
    | some limit => exact neat_supplyCheck
  have payment : (p.price.map p.paymentCheck).all Stmt.isNeat = true := by
    cases p.price with
    | none => rfl
    | some price => exact neat_paymentCheck price
  have tokens : (if p.mintsSeveral then [.loop "uint256 i = 0" "i < count" "i++" p.mintOne]
      else p.mintOne).all Stmt.isNeat = true := by
    split
    · simp +decide [Stmt.isNeat, neat_mintOne]
    · exact neat_mintOne
  simp [mintBody, neat_batchChecks, sale, rule, supply, payment, tokens]

/-- The section on minting takes nothing from the settings but numbers, hence no hypothesis. -/
theorem neat_minting : p.minting.all Member.isNeat = true := by
  have arguments : p.mintArguments.all startsLine = true := by
    unfold mintArguments
    cases p.minterPicksIds <;> cases p.mintsSeveral <;> cases p.hasParameters <;> decide
  have modifiers : p.mintModifiers.all startsLine = true := by
    unfold mintModifiers
    cases p.price.isSome <;> cases p.onlyOwnerMints <;> decide
  have rule : (p.gate.map Gate.field).all Member.isNeat = true := by
    cases p.gate with
    | none => rfl
    | some gate => exact gate.neat_field
  have price : (p.price.map fun price => Member.constant "PRICE" price.wei).all Member.isNeat =
      true := by
    cases p.price <;> simp +decide
  simp +decide [minting, arguments, modifiers, neat_mintBody, rule, price, neat_limit]

theorem neat_toText {value : Expr} (neat : value.isNeat = true) : (toText value).isNeat = true := by
  simp +decide [toText, neat]

theorem neat_toHexText {value : Expr} (neat : value.isNeat = true) (bytes : Nat) :
    (toHexText value bytes).isNeat = true := by
  simp +decide [toHexText, neat]

/-- A name behind a dot may be anything in one line, since the text in front of it has ink. -/
theorem Parameter.neat_text {parameter : Parameter} (level : isLevel parameter.name = true) :
    parameter.text.isNeat = true := by
  obtain ⟨name, type⟩ := parameter
  have field : startsLine ("parameters." ++ name) = true := startsLine_append (by decide) level
  have reading (opening closing : String) (opens : startsLine opening = true)
      (closes : isLevel closing = true) :
      (Expr.ident (opening ++ ("parameters." ++ name) ++ closing)).isNeat = true :=
    startsLine_append (startsLine_append opens (isLevel_append (by decide) level)) closes
  cases type with
  | string => exact field
  | bool => exact startsLine_append field (by decide)
  | address => exact neat_toHexText (reading "uint256(uint160(" "))" (by decide) (by decide)) 20
  | bytes32 => exact neat_toHexText (reading "uint256(" ")" (by decide) (by decide)) 32
  | _ => exact neat_toText field

/-- The texts of a query alternate between literals, which are neat, and values of parameters. -/
theorem neat_queryTexts (level : ∀ parameter ∈ p.parameters, isLevel parameter.name = true) :
    p.queryTexts.all Expr.isNeat = true := by
  refine List.all_eq_true.2 fun e mem => ?_
  obtain ⟨⟨key, parameter⟩, entry, here⟩ := List.mem_flatMap.1 mem
  simp only [List.mem_cons, List.not_mem_nil, or_false] at here
  rcases here with rfl | rfl
  · rfl
  · exact Parameter.neat_text (level parameter (List.of_mem_zip entry).2)

theorem neat_packed {texts : List Expr} (neat : texts.all Expr.isNeat = true) :
    (packed texts).isNeat = true := by
  simp +decide [packed, neat]

theorem neat_baseUri : p.baseUri.isNeat = true := by
  unfold baseUri
  split
  · rfl
  · decide

/-- The address of a token is neat for templates of every shape. -/
theorem neat_uriOf (level : ∀ parameter ∈ p.parameters, isLevel parameter.name = true) :
    p.uriOf.isNeat = true := by
  have number : (toText tokenId).isNeat = true := by decide
  unfold uriOf
  split
  · exact neat_baseUri
  · split
    · exact neat_packed (by simp [neat_baseUri, number])
    · decide
  · refine neat_packed ?_
    rw [List.all_cons, List.all_cons, neat_baseUri, number, neat_queryTexts level]
    rfl
  · rename_i rest shape
    have texts : (rest.flatMap p.tokenTexts).all Expr.isNeat = true := by
      rw [List.all_flatMap]
      refine List.all_eq_true.2 fun token mem => ?_
      unfold tokenTexts
      split
      · rfl
      split
      · rw [List.all_cons, number]
        rfl
      · exact neat_queryTexts level
    exact neat_packed (by rw [List.all_cons, neat_baseUri, texts]; rfl)

theorem neat_uriFunction (level : ∀ parameter ∈ p.parameters, isLevel parameter.name = true) :
    p.uriFunction.isNeat = true := by
  have modifiers : (["public", "view"] ++ if p.isDelegated then [] else ["override"]).all
      startsLine = true := by
    cases p.isDelegated <;> decide
  have body : p.uriBody.all Stmt.isNeat = true := by
    simp +decide [uriBody, storedUri, Parameter.stored, neat_uriOf level]
  rw [uriFunction, Member.isNeat_function, modifiers, body]
  decide

/-- The record and its map take the names of the parameters from the settings. -/
theorem neat_parameterSection
    (level : ∀ parameter ∈ p.parameters, isLevel parameter.name = true) :
    p.parameterSection.all Member.isNeat = true := by
  have fields : (p.parameters.map fun parameter =>
      ⟨parameter.type.name, [], parameter.name, none⟩).all Variable.isNeat = true := by
    rw [List.all_map, List.all_eq_true]
    intro parameter mem
    have typed : startsLine parameter.type.name = true := by
      cases parameter.type <;> decide
    simp [Variable.isNeat, typed, isLevel_iff.1 (level parameter mem)]
  unfold parameterSection
  split
  · simp +decide [Member.isNeat, Declaration.isNeat, fields]
  · rfl

/-- The address of a token is the only part of this section with names from the settings. -/
theorem neat_uriSection (level : ∀ parameter ∈ p.parameters, isLevel parameter.name = true) :
    p.uriSection.all Member.isNeat = true := by
  have base : (if p.isDelegated then [] else baseUriMembers).all Member.isNeat = true := by
    split <;> decide
  have stored : (if p.storesUris then storedUriMembers else []).all Member.isNeat = true := by
    split <;> decide
  have description : ((p.contractUri.map contractUriMembers).getD []).all Member.isNeat =
      true := by
    cases p.contractUri with
    | none => rfl
    | some uri => simp +decide [contractUriMembers]
  simp +decide [uriSection, base, stored, description, neat_uriFunction level]

theorem neat_royaltySection : p.royaltySection.all Member.isNeat = true := by
  unfold royaltySection
  split
  · rfl
  · rename_i points own
    have info : (Expr.tuple [thisContract, .binary (.binary (.ident "salePrice") "*" (.nat points))
        "/" (.nat Settings.wholeRoyalty)]).isNeat = true := by
      simp +decide [Expr.tuple]
    have modifier : ["public", "view", "virtual", "override(" ++ p.foundation.contract ++
        ", IERC165)"].all startsLine = true := by
      cases p.foundation <;> decide
    simp +decide [info, modifier]

theorem neat_registrySection : p.registrySection.all Member.isNeat = true := by
  unfold registrySection
  split <;> decide

end Plan

namespace Share

variable {share : Share} {owner : Expr}

theorem neat_payoutName (number : Nat) :
    startsLine (payoutName number) = true ∧ isLevel (payoutName number) = true := by
  have digits := isLevel_of_isPlainText (isPlainText_toString number)
  exact ⟨startsLine_append (by decide) digits, isLevel_append (by decide) digits⟩

/-- Only the words of the address of a receiver are taken. -/
theorem neat_constant {m : Member} (own : share.constant? = some m) : m.isNeat = true := by
  unfold constant? at own
  split at own
  · rename_i number address same
    cases own
    have value := Expr.isNeat_ofWord (s := spaced (words address))
      (by rw [trim_spaced_words]; exact isLevel_spaced_words address)
    simp +decide [value, neat_payoutName]
  · cases own

theorem neat_send (neat : owner.isNeat = true) (isLast : Bool) :
    (share.send owner isLast).isNeat = true := by
  have account : (share.account owner).isNeat = true := by
    unfold account
    split
    · exact (neat_payoutName _).1
    · exact neat
  have amount : (share.amount isLast).isNeat = true := by
    unfold amount
    split
    · decide
    split
    · decide
    · simp +decide
  simp +decide [send, account, amount]

/-- All transfers are neat, whoever receives them. -/
theorem neat_sendAll (neat : owner.isNeat = true) (shares : List Share) :
    (sendAll owner shares).all Stmt.isNeat = true := by
  induction shares with
  | nil => rfl
  | cons share shares ih => rw [sendAll, List.all_cons, neat_send neat, ih]; rfl

end Share

namespace Plan

variable {p : Plan}

/-- The addresses of the receivers are cut into words, so none of them breaks a line. -/
theorem neat_payout : p.payout.all Member.isNeat = true := by
  have constants : (p.shares.filterMap Share.constant?).all Member.isNeat = true := by
    refine List.all_eq_true.2 fun m mem => ?_
    obtain ⟨share, -, own⟩ := List.mem_filterMap.1 mem
    exact Share.neat_constant own
  have body : p.withdrawBody.all Stmt.isNeat = true := by
    simp +decide [withdrawBody, Share.neat_sendAll neat_owner]
  unfold payout
  split
  · simp +decide [constants, body]
  · rfl

theorem neat_baseConstructor : p.baseConstructor.isNeat = true := by
  have contract : startsLine p.foundation.contract = true := by
    cases p.foundation <;> decide
  unfold baseConstructor
  split
  · simp +decide [contract, Expr.isNeat, Expr.allNamedNeat]
  · simp +decide

/-- Of the settings, the constructor writes the accounts with allowances only. -/
theorem neat_constructor (level : ∀ a ∈ p.allowances, isLevel a.1 = true) :
    p.constructor.isNeat = true := by
  have arguments : p.constructor.arguments.all startsLine = true := by
    simp only [constructor]
    cases p.isDelegated <;> cases p.gate.isSome <;> cases p.hasRegistry <;> decide
  have body : p.constructor.body.all Stmt.isNeat = true := by
    simp +decide [constructor, neat_initialAllowances level, Gate.assignment, registryAssignment]
  have base : p.constructor.base.all Expr.isNeat = true := neat_baseConstructor
  rw [Constructor.isNeat, arguments, base, body]
  rfl

/-- The name of the contract is a word, so nothing is asked of it; names of parameters and accounts
with allowances have to stay in one line. -/
theorem neat_contract (names : ∀ parameter ∈ p.parameters, isLevel parameter.name = true)
    (receivers : ∀ a ∈ p.allowances, isLevel a.1 = true) : p.contract.isNeat = true := by
  have bases : p.bases.all startsLine = true := by
    unfold bases
    cases p.foundation <;> simp +decide
  have named : isLevel p.contractName = true := by
    have word := isWord_contractName p.title
    rw [isWord, Bool.and_eq_true] at word
    exact isLevel_of_isPlainText word.2
  have constructor : (Member.declaration (.constructor p.constructor)).isNeat = true :=
    neat_constructor receivers
  have body : p.body.all Member.isNeat = true := by
    simp +decide [Plan.body, constructor, neat_parameterSection names, neat_allowlist, neat_minting,
      neat_activation, neat_uriSection names, neat_payout, neat_royaltySection,
      neat_registrySection]
  rw [Contract.isNeat, contract, named, bases, body]
  rfl

theorem neat_program (names : ∀ parameter ∈ p.parameters, isLevel parameter.name = true)
    (receivers : ∀ a ∈ p.allowances, isLevel a.1 = true) : p.program.isNeat = true := by
  have registry : (p.registryContracts.map Item.contract).all Item.isNeat = true := by
    unfold registryContracts
    split <;> decide
  have contract : (Item.contract p.contract).isNeat = true := neat_contract names receivers
  simp +decide [Program.isNeat, program, registry, contract]

end Plan

namespace Settings

/-- A source is formatted: no line of it ends in a space, it starts with a line that is not blank
and ends with one line feed, blank lines stand alone, and none stands behind a line that opens a
brace or in front of one that closes a brace. -/
theorem formatted_source (s : Settings)
    (names : ∀ parameter ∈ s.parameters, '\n' ∉ parameter.name.toList)
    (addresses : ∀ a ∈ s.allowances, '\n' ∉ a.address.toList) : Formatted s.source.toList := by
  refine Program.formatted_render (Plan.neat_program ?_ ?_) pageWidth
  · exact fun parameter mem => isLevel_iff.2 (names parameter mem)
  · intro a mem
    obtain ⟨allowance, listed, rfl⟩ := List.mem_map.1 mem
    exact isLevel_iff.2 fun feed => addresses allowance listed (mem_of_mem_trim feed)

/-- Settings with spaces, braces and line feeds wherever they may stand. -/
def sampleRough : Settings :=
  { blank with
    tokenName := "\n \x7d"
    symbol := "\x7b\n"
    supply := some 9
    batchLimit := some 3
    walletLimit := some 2
    price := some "0.1"
    tokenUri := "\n\x7btokenId\x7d\x7bparameters\x7d\n"
    contractUri := some "\x7d\n\x7d"
    parameters := [⟨"\x7d", .bool⟩, ⟨"  ", .string⟩, ⟨"\x7b", .address⟩]
    payouts := [⟨"\n", 40⟩, ⟨"\x7d \n \x7b", 40⟩]
    allowances := [⟨"\x7d", 3⟩, ⟨"  ", 1⟩] }

theorem formatted_sampleRough :
    (∀ parameter ∈ sampleRough.parameters, '\n' ∉ parameter.name.toList) ∧
      (∀ a ∈ sampleRough.allowances, '\n' ∉ a.address.toList) ∧
      Formatted sampleRough.source.toList := by
  have names : ∀ parameter ∈ sampleRough.parameters, '\n' ∉ parameter.name.toList := by decide
  have addresses : ∀ a ∈ sampleRough.allowances, '\n' ∉ a.address.toList := by decide
  exact ⟨names, addresses, formatted_source sampleRough names addresses⟩

end Settings

end Mintage
