import Mintage.Contract.Assembly
import Mintage.Proofs.Source.Metadata
import Mintage.Proofs.Source.Sale

/-! The pieces of the source of a contract are sound if the names and addresses in its settings are
plain. -/
namespace Mintage

open Solidity Text

/-- A plain word is sound whether it is read as a name or as a number. -/
theorem Solidity.Expr.sound_ofWord {s : String} (plain : isPlainText s = true) :
    AllSound (Expr.ofWord s).pieces := by
  have word := isSound_of_isPlainText plain
  simp only [Expr.ofWord, trim_of_isPlainText plain]
  split
  · exact Expr.sound_bool true
  split
  · exact Expr.sound_bool false
  split
  · exact (sound_known word).2 sound_nil
  · exact Expr.sound_ident word

/-- The names of the parameters and the addresses in the plan are plain. -/
structure Plan.Plain (p : Plan) : Prop where
  names : ∀ parameter ∈ p.parameters, isPlainText parameter.name = true
  receivers : ∀ share ∈ p.shares, ∀ number address,
    share.recipient = .destination number address → isPlainText address = true
  allowances : ∀ a ∈ p.allowances, isPlainText a.1 = true

/-- The names of the parameters are plain, and so are the addresses that receive ether or
allowances. -/
structure Settings.Plain (s : Settings) : Prop where
  names : ∀ parameter ∈ s.parameters, isPlainText parameter.name = true
  receivers : ∀ payout ∈ s.payouts, isPlainText payout.address = true
  allowances : ∀ a ∈ s.allowances, isPlainText a.address = true

/-- A share for a destination comes from a payout in the settings, with blanks trimmed from its
address. -/
theorem exists_payout_of_mem_sharesOf {number left : Nat} {payouts : List Payout} {share : Share}
    (mem : share ∈ sharesOf number left payouts) {n : Nat} {address : String}
    (destination : share.recipient = .destination n address) :
    ∃ payout ∈ payouts, address = trim payout.address := by
  induction payouts generalizing number left with
  | nil =>
    unfold sharesOf at mem
    split at mem
    · cases mem
    · rw [List.mem_singleton.1 mem] at destination
      cases destination
  | cons payout payouts ih =>
    have later {number left : Nat} (mem : share ∈ sharesOf number left payouts) :
        ∃ own ∈ payout :: payouts, address = trim own.address := by
      obtain ⟨own, listed, same⟩ := ih mem
      exact ⟨own, List.mem_cons_of_mem _ listed, same⟩
    simp only [sharesOf] at mem
    split at mem
    · exact later mem
    · rcases List.mem_cons.1 mem with rfl | mem
      · cases destination
        exact ⟨payout, List.mem_cons_self, rfl⟩
      · exact later mem

/-- What is plain in the settings is plain in the plan: trimming keeps an address plain. -/
theorem Settings.Plain.plan {s : Settings} (plain : s.Plain) : s.plan.Plain := by
  have trimmed {address : String} (plain : isPlainText address = true) :
      isPlainText (trim address) = true := by rwa [trim_of_isPlainText plain]
  refine ⟨plain.names, fun share mem n address destination => ?_, fun a mem => ?_⟩
  · have own : share ∈ s.shares := by
      simp only [Settings.plan] at mem
      split at mem
      · exact mem
      · cases mem
    obtain ⟨payout, listed, rfl⟩ := exists_payout_of_mem_sharesOf own destination
    exact trimmed (plain.receivers payout listed)
  · obtain ⟨allowance, listed, rfl⟩ := List.mem_map.1 mem
    exact trimmed (plain.allowances allowance listed)

theorem isSound_payoutName (number : Nat) : isSound (.code, payoutName number) = true :=
  isSound_of_isPlainText (isPlainText_append (by decide) (isPlainText_toString number))

namespace Share

variable {share : Share} {owner : Expr}

theorem sound_send (sound : AllSound owner.pieces) (isLast : Bool) :
    AllSound (share.send owner isLast).pieces := by
  have account : AllSound (share.account owner).pieces := by
    unfold account
    split
    · exact Expr.sound_ident (isSound_payoutName _)
    · exact sound
  have amount : AllSound (share.amount isLast).pieces := by
    unfold amount
    split
    · decide
    split
    · decide
    · have balance : AllSound (Expr.ident "balance").pieces := by decide
      simp (disch := decide) [balance]
  have library : AllSound (Expr.ident "Address").pieces := by decide
  unfold send
  simp (disch := decide) [library, account, amount]

theorem sound_sendAll (sound : AllSound owner.pieces) (shares : List Share) :
    AllSound ((sendAll owner shares).flatMap Stmt.pieces) := by
  induction shares with
  | nil => exact sound_nil
  | cons share shares ih => exact sound_append.2 ⟨sound_send sound _, ih⟩

end Share

namespace Plan

variable {p : Plan}

/-- The constants of the receivers are sound because their addresses are plain. -/
theorem sound_payout (plain : p.Plain) : AllSound (p.payout.flatMap Member.pieces) := by
  unfold payout
  split
  · simp only [outline_cons, outline_nil, List.append_nil, List.flatMap_append, sound_append,
      sound_one, sound_all]
    refine ⟨by decide, sound_flatMap fun m mem => ?_, ?_⟩
    · obtain ⟨share, own, built⟩ := List.mem_filterMap.1 mem
      unfold Share.constant? at built
      split at built
      · rename_i number address destination
        cases built
        have word := plain.receivers share own number address destination
        rw [spaced_words_of_isPlainText word]
        exact (Member.sound_fieldWith (by decide) (isSound_payoutName number)).2
          (Expr.sound_ofWord word)
      · cases built
    · refine (Member.sound_function (by decide)).2 ?_
      have balance : AllSound (Stmt.declare "uint256" "balance" currentBalance).pieces := by decide
      exact sound_append.2 ⟨balance, Share.sound_sendAll sound_owner p.shares⟩
  · exact sound_nil

/-- The section on royalties takes a number from the settings and no text. -/
theorem sound_royaltySection : AllSound (p.royaltySection.flatMap Member.pieces) := by
  unfold royaltySection
  split
  · exact sound_nil
  · rename_i points _
    have price : AllSound (Expr.ident "salePrice").pieces := by decide
    have contract : AllSound thisContract.pieces := by decide
    have info : AllSound (Expr.tuple [thisContract,
        .binary (.binary (.ident "salePrice") "*" (.nat points)) "/"
          (.nat Settings.wholeRoyalty)]).pieces := by
      simp (disch := decide) [Expr.tuple, price, contract]
    simp only [List.flatMap_cons, List.flatMap_nil, List.append_nil, sound_append]
    refine ⟨by decide, (Member.sound_function (by decide)).2 (by simpa using info), ?_⟩
    cases p.foundation <;> decide

theorem sound_registrySection : AllSound (p.registrySection.flatMap Member.pieces) := by
  unfold registrySection
  split
  · decide
  · exact sound_nil

theorem sound_baseConstructor : AllSound p.baseConstructor.pieces := by
  have contract : isSound (.code, p.foundation.contract) = true := by
    cases p.foundation <;> decide
  unfold baseConstructor
  split
  · have factory : AllSound (Expr.ident "baseFactory").pieces := by decide
    have settings : AllSound (Expr.callNamed (.ident "ConfigSettings") [
        ("royaltyBps", .nat (p.royalty.getD 0)),
        ("uriBase", .ident "customBaseURI_"),
        ("uriExtension", .string ""),
        ("hasTransferHook", .bool false)]).pieces := by
      simp (disch := decide) [Expr.pieces]
    simp [contract, factory, settings]
  · simp (disch := decide)

/-- The constructor names the accounts with allowances, which have to be plain. -/
theorem sound_constructor (plain : p.Plain) :
    AllSound (Member.declaration (.constructor p.constructor)).pieces := by
  have arguments : AllSound (p.constructor.arguments.map (Role.code, ·)) := by
    simp only [constructor]
    cases p.isDelegated <;> cases p.gate.isSome <;> cases p.hasRegistry <;> decide
  have body : AllSound (p.constructor.body.flatMap Stmt.pieces) := by
    simp only [constructor, outline_cons, outline_nil, List.append_nil, List.flatMap_append,
      sound_append, sound_when, sound_all]
    exact ⟨fun _ => by decide, fun _ => by decide, fun _ => by decide,
      sound_initialAllowances plain.allowances⟩
  have own : (Member.declaration (.constructor p.constructor)).pieces =
      p.constructor.arguments.map (Role.code, ·) ++ p.baseConstructor.pieces ++
        Stmt.allPieces p.constructor.body := rfl
  rw [own, Stmt.allPieces_eq_flatMap]
  exact sound_append.2 ⟨sound_append.2 ⟨arguments, sound_baseConstructor⟩, body⟩

theorem sound_body (plain : p.Plain) : AllSound (p.body.flatMap Member.pieces) := by
  simp only [body, outline_cons, outline_nil, List.append_nil, List.flatMap_append,
    sound_append, sound_one, sound_when, sound_all]
  exact ⟨fun _ => by decide, sound_constructor plain, sound_parameterSection plain.names,
    sound_allowlist, sound_minting, sound_activation, sound_uriSection plain.names,
    sound_payout plain, sound_royaltySection, sound_registrySection⟩

theorem isWord_of_mem_bases {base : String} (mem : base ∈ p.bases) : isWord base = true := by
  simp only [bases, outline_cons, outline_nil, List.append_nil, List.mem_append, Part.mem_one,
    Part.mem_when] at mem
  rcases mem with rfl | ⟨-, rfl⟩ | rfl | ⟨-, rfl⟩
  · cases p.foundation <;> decide
  · decide
  · decide
  · decide

theorem named_contract : p.contract.Named :=
  ⟨isWord_contractName p.title, fun _ mem => isWord_of_mem_bases mem⟩

theorem sound_contract (plain : p.Plain) : AllSound p.contract.pieces := by
  have names : AllSound ((p.contractName :: p.bases).map (Role.code, ·)) := by
    have word {name : String} (word : isWord name = true) : isSound (.code, name) = true := by
      rw [isWord, Bool.and_eq_true] at word
      exact isSound_of_isPlainText word.2
    refine (sound_known (word named_contract.name)).2 fun piece mem => ?_
    obtain ⟨base, listed, rfl⟩ := List.mem_map.1 mem
    exact word (isWord_of_mem_bases listed)
  exact sound_append.2 ⟨names, sound_body plain⟩

theorem sound_registryContracts :
    AllSound ((p.registryContracts.map Item.contract).flatMap Item.pieces) := by
  unfold registryContracts
  split
  · decide
  · exact sound_nil

theorem sound_items (plain : p.Plain) : AllSound (p.program.body.flatMap Item.pieces) := by
  simp only [program, outline_cons, outline_nil, List.append_nil, List.flatMap_append,
    sound_append, sound_one, sound_all]
  exact ⟨sound_registryContracts, sound_contract plain, by decide⟩

/-- Whatever of the source is not a literal is tidy, and closes its own literals. -/
theorem sound_program (plain : p.Plain) : AllSound p.program.pieces := by
  have front : AllSound [(.line, license), (.code, compiler)] := by decide
  exact sound_append.2 ⟨front, sound_items plain⟩

/-- All contracts of a program have a word for a name, those for the marketplace and the main
one. -/
theorem named_of_mem_program {c : Contract} (mem : .contract c ∈ p.program.body) : c.Named := by
  simp only [program, outline_cons, outline_nil, List.append_nil, List.mem_append, Part.mem_one,
    Part.mem_all, List.mem_map, Item.contract.injEq, reduceCtorEq, or_false] at mem
  rcases mem with ⟨registry, listed, rfl⟩ | rfl
  · unfold registryContracts at listed
    split at listed
    · simp only [List.mem_cons, List.not_mem_nil, or_false] at listed
      rcases listed with rfl | rfl <;> exact ⟨by decide, by simp⟩
    · cases listed
  · exact named_contract

/-- The program of a plan with plain names and addresses is orderly. -/
theorem orderly_program (plain : p.Plain) : p.program.Orderly := by
  have items := sound_items plain
  refine ⟨?_, ?_, fun i mem => ?_⟩
  · rintro _ ⟨⟩
    decide
  · rintro _ ⟨⟩
    decide
  · have own (piece : Piece) (here : piece ∈ i.pieces) : isTidy piece = true :=
      isTidy_of_isSound (items piece (List.mem_flatMap.2 ⟨i, mem, here⟩))
    cases i with
    | comment c => exact own
    | contract c =>
      refine ⟨named_of_mem_program mem, fun m listed piece here => own piece ?_⟩
      exact List.mem_append_right _ (List.mem_flatMap.2 ⟨m, listed, here⟩)

end Plan

end Mintage
