import Mintage.Proofs.Metadata

/-! The address that a contract gives for a token is the template with the values that the contract
stores, unless the token has an address of its own. -/
namespace Mintage.Settings

open Solidity Template

/-- The values that a contract stores for the parameters of a token stand in its address in the
order of the parameters. -/
theorem shownUri_plan (s : Settings) (id : Nat) (texts : Expr → String) {tokens : List Token}
    (accepted : parseUri s.tokenUri = .ok tokens) (slots : tokens.any UriShape.isSlot = true) :
    s.plan.shownUri id texts =
      fillAll (knownValue id (s.parameters.map fun p => (p.name, texts p.text))) tokens := by
  have shown : s.plan.shown texts = s.parameters.map fun p => (p.name, texts p.text) := rfl
  have unused (none : s.parameters = []) :
      knownValue id (s.plan.shown texts) parametersSlot = "" := by
    rw [shown, none]
    rfl
  have base : s.plan.uriBase = leading s.tokenUri := rfl
  rw [Plan.shownUri, filled_uriShape accepted unused, if_pos slots, base, shown,
    ← UriShape.fillAll_dropBase accepted]

/-- For every token of a contract whose template has a slot, the contract gives the address that is
stored for the token if there is one, and else the template: its texts as they are, the number for
each slot of a number, and the query of all stored parameters for each slot of parameters. -/
theorem tokenUri_substitutes (s : Settings) (message : Message) {store : Store} {id : Nat}
    {texts : Expr → String} {own : String} (stored : s.Stored id texts own store)
    (word : id < wordBound) {tokens : List Token} (accepted : parseUri s.tokenUri = .ok tokens)
    (slots : tokens.any UriShape.isSlot = true) :
    s.plan.contract.invoke message callDepth "tokenURI" [.number id] store =
      some (.text
        (if s.storesUris = true ∧ own ≠ "" then own
        else fillAll (knownValue id (s.parameters.map fun p => (p.name, texts p.text))) tokens),
        store) := by
  have answer : s.plan.contract.invoke message (1022 + 2) "tokenURI" [.number id] store =
      some (.text (s.answeredUri id texts own), store) := invoke_answeredUri stored word
  rw [answeredUri, s.shownUri_plan id texts accepted slots] at answer
  exact answer

/-- A contract that stores addresses and two parameters, for whose addresses the template is several
texts and slots. -/
def sampleKinds : Settings where
  __ := blank
  tokenUri := "a\x7b\x7db\x7btokenId\x7d\x7bparameters\x7d/\x7bparameters"
  storesUris := true
  parameters := [⟨"kind", .bool⟩, ⟨"size", .uint8⟩]

/-- What the parameters of a token show as: the truth value is a field, the number is converted. -/
def sampleTexts : Expr → String
  | .ident _ => "true"
  | _ => "12"

/-- A store with this address for every token. -/
def storedAddresses (base own : String) : Store where
  __ := freshAddresses base
  entries := fun map _ => if map = "tokenURIMap" then .text own else .record sampleTexts

theorem stored_sampleKinds (own : String) :
    sampleKinds.Stored 7 sampleTexts own (storedAddresses "a" own) := by
  have base : leading sampleKinds.tokenUri = "a" := by decide +kernel
  exact ⟨by rw [base]; rfl, by rw [base]; rfl, rfl, rfl⟩

theorem tokenUri_sampleKinds :
    parseUri sampleKinds.tokenUri = .ok [.text "a", .text "b", .slot "tokenId", .slot "parameters",
        .text "/", .slot "parameters"] ∧
      sampleKinds.Stored 7 sampleTexts "" (storedAddresses "a" "") ∧
      sampleKinds.Stored 7 sampleTexts "own" (storedAddresses "a" "own") ∧ 7 < wordBound ∧
      sampleKinds.plan.contract.invoke ⟨1, 0, fun _ => .unit⟩ callDepth "tokenURI" [.number 7]
        (storedAddresses "a" "") =
          some (.text "ab7?kind=true&size=12/?kind=true&size=12", storedAddresses "a" "") ∧
      sampleKinds.plan.contract.invoke ⟨1, 0, fun _ => .unit⟩ callDepth "tokenURI" [.number 7]
        (storedAddresses "a" "own") = some (.text "own", storedAddresses "a" "own") := by
  have accepted : parseUri sampleKinds.tokenUri = .ok [.text "a", .text "b", .slot "tokenId",
      .slot "parameters", .text "/", .slot "parameters"] := by decide +kernel
  have built := tokenUri_substitutes sampleKinds ⟨1, 0, fun _ => .unit⟩ (stored_sampleKinds "")
    (by decide) accepted rfl
  have taken := tokenUri_substitutes sampleKinds ⟨1, 0, fun _ => .unit⟩ (stored_sampleKinds "own")
    (by decide) accepted rfl
  have filled : fillAll (knownValue 7 (sampleKinds.parameters.map fun p =>
      (p.name, sampleTexts p.text))) [.text "a", .text "b", .slot "tokenId", .slot "parameters",
      .text "/", .slot "parameters"] = "ab7?kind=true&size=12/?kind=true&size=12" := by
    decide +kernel
  rw [if_neg (by simp), filled] at built
  exact ⟨accepted, stored_sampleKinds "", stored_sampleKinds "own", by decide, built, taken⟩

end Mintage.Settings
