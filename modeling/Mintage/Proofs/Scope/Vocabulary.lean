import Mathlib.Tactic.Tauto
import Mintage.Proofs.Contract.Members
import Mintage.Proofs.Scope.Names

/-! The names that the sections of a contract share, and where a contract finds them. -/
namespace Mintage

open Solidity

/-- The names that the sections use, but for those of receivers. -/
def vocabulary : List String := [
  "saleIsActive", "accessToken", "accessTokenIsActive", "MAX_SUPPLY", "MAX_TOKEN_ID",
  "MAX_MULTIMINT", "PRICE", "MINT_LIMIT_PER_WALLET", "supplyCounter", "totalSupply",
  "mintCountMap", "allowedMintCountMap", "allowedMintCount", "updateMintCount", "max",
  "TokenParameters", "tokenParametersMap", "customBaseURI", "_baseURI", "tokenURIMap",
  "customContractURI", "proxyRegistryAddress", "ProxyRegistry", "count", "id", "ids", "i",
  "parameters", "storedURI", "balance", "Counters", "Strings", "Address", "IERC721", "IERC2981"]

/-- Whether a name is one that the sections share. -/
def isShared (name : String) : Bool :=
  vocabulary.contains name || "payoutAddress".toList.isPrefixOf name.toList

/-- Whether the library for texts writes the values of a type. -/
def ValueType.isConverted : ValueType → Bool
  | .string => false
  | .bool => false
  | _ => true

theorem ValueType.isConverted_eq_false_iff {type : ValueType} :
    type.isConverted = false ↔ type = .string ∨ type = .bool := by
  cases type <;> simp [isConverted]

namespace Plan

variable (p : Plan)

/-- Whether the library for texts writes what a token of a template stands for. -/
def converts : Template.Token → Bool
  | .text _ => false
  | .slot name => name == Template.tokenIdSlot || p.parameters.any (·.type.isConverted)

/-- Whether the addresses are made with the library for texts. -/
def usesStrings : Bool :=
  p.overridesUri &&
    match p.uriShape with
    | .fixed => false
    | .standard query => query || p.isDelegated
    | .custom rest => rest.any p.converts

/-- A name is declared by the contract, inherited, or comes with the file or with an import. -/
def Resolves (name : String) : Prop :=
  name ∈ p.contract.declared ∨
  (name = "totalSupply" ∧ "ERC721Enumerable" ∈ p.contract.bases) ∨
  (∃ c ∈ p.registryContracts, .contract c ∈ p.program.body ∧ c.name = name) ∨
  ∃ path ∈ p.program.imports, ("/" ++ name ++ ".sol").toList <:+ path.toList

/-- The names that other files, bases and contracts provide. -/
def provided : List (Part String) := [
  .when (!p.countsSupply) "totalSupply",
  .when p.hasRegistry "ProxyRegistry",
  .when p.countsSupply "Counters",
  .when p.usesStrings "Strings",
  .when p.earns "Address",
  .when p.gate.isSome "IERC721",
  .when p.ownRoyalty.isSome "IERC2981"]

variable {p}

theorem resolves_of_declared {name : String} (mem : name ∈ outline p.names) : p.Resolves name :=
  .inl (by rw [declared_contract]; exact mem)

theorem resolves_of_import {name : String} (path : String)
    (file : ("/" ++ name ++ ".sol").toList <:+ path.toList)
    (mem : path ∈ p.dependencies.imports) : p.Resolves name :=
  .inr (.inr (.inr ⟨path, mem, file⟩))

/-- The rule for the import asks for the library at least where it is used. -/
theorem needsText_of_converts {token : Template.Token} (converts : p.converts token = true) :
    p.needsText token = true := by
  cases token with
  | text s => cases converts
  | slot name =>
    simp only [Plan.converts, needsText, Bool.or_eq_true] at converts ⊢
    refine converts.imp_right fun some => ?_
    obtain ⟨parameter, own, converted⟩ := List.any_eq_true.1 some
    refine List.any_eq_true.2 ⟨parameter, own, ?_⟩
    rw [bne_iff_ne]
    intro text
    rw [text] at converted
    cases converted

theorem needsStrings_of_uses (uses : p.usesStrings = true) : p.needsStrings = true := by
  unfold usesStrings at uses
  unfold needsStrings
  cases shape : p.uriShape with
  | fixed => simp [shape] at uses
  | standard query => simpa [shape] using uses
  | custom rest =>
    simp only [shape, Bool.and_eq_true] at uses ⊢
    obtain ⟨token, mem, converts⟩ := List.any_eq_true.1 uses.2
    exact ⟨uses.1, List.any_eq_true.2 ⟨token, mem, needsText_of_converts converts⟩⟩

/-- Every name that is provided has its source: a base, a contract in front, or an import. -/
theorem resolves_of_provided {name : String} (mem : name ∈ outline p.provided) :
    p.Resolves name := by
  simp only [provided, outline_cons, outline_nil, List.append_nil, List.mem_append,
    Part.mem_when] at mem
  rcases mem with ⟨listed, rfl⟩ | ⟨registry, rfl⟩ | ⟨counts, rfl⟩ | ⟨uses, rfl⟩ | ⟨earns, rfl⟩ |
    ⟨gated, rfl⟩ | ⟨royalty, rfl⟩
  · refine .inr (.inl ⟨rfl, ?_⟩)
    have foundation : p.foundation = .enumerable := by
      simpa [countsSupply, Foundation.countsTokens] using listed
    simp [contract, bases, foundation, Foundation.contract]
  · have written : ∃ c ∈ p.registryContracts, c.name = "ProxyRegistry" := by
      simp [registryContracts, registry]
    obtain ⟨c, mem, named⟩ := written
    exact .inr (.inr (.inl ⟨c, mem, by simp [program, mem], named⟩))
  · refine resolves_of_import (Dependencies.openZeppelin "utils/Counters") (by decide) ?_
    simp [Dependencies.imports, dependencies, counts]
  · refine resolves_of_import (Dependencies.openZeppelin "utils/Strings") (by decide) ?_
    simp [Dependencies.imports, dependencies, needsStrings_of_uses uses]
  · refine resolves_of_import (Dependencies.openZeppelin "utils/Address") (by decide) ?_
    simp [Dependencies.imports, dependencies, earns]
  · refine resolves_of_import (Dependencies.openZeppelin "token/ERC721/IERC721") (by decide) ?_
    simp [Dependencies.imports, dependencies, gated]
  · refine resolves_of_import (Dependencies.openZeppelin "interfaces/IERC2981") (by decide) ?_
    have own : p.foundation.isDelegated = false := by
      unfold ownRoyalty at royalty
      split at royalty
      · cases royalty
      · rename_i own
        simpa [isDelegated] using own
    simp [Dependencies.imports, dependencies, royalty, own]

/-- The names that a contract can use. -/
def available (p : Plan) : List String := outline (p.names ++ p.provided)

/-- What is available resolves, wherever it comes from. -/
theorem resolves_of_available {name : String} (mem : name ∈ p.available) : p.Resolves name := by
  rw [available, outline_append] at mem
  rcases List.mem_append.1 mem with declared | provided
  · exact resolves_of_declared declared
  · exact resolves_of_provided provided

/-- The shared ones of the names are locals or can be used. -/
def Accounts (p : Plan) (locals used : List String) : Prop :=
  ∀ name ∈ used, isShared name = true → name ∈ locals ∨ name ∈ p.available

variable {locals used more : List String} {g : Given}

@[simp] theorem accounts_nil : p.Accounts locals [] := by
  intro name mem
  cases mem

/-- Names may be accounted for one at a time. -/
theorem accounts_cons {name : String} : p.Accounts locals (name :: used) ↔
    (isShared name = true → name ∈ locals ∨ name ∈ p.available) ∧ p.Accounts locals used := by
  simp only [Accounts, List.mem_cons, forall_eq_or_imp]

@[simp] theorem accounts_append :
    p.Accounts locals (used ++ more) ↔ p.Accounts locals used ∧ p.Accounts locals more := by
  simp only [Accounts, List.mem_append, or_imp, forall_and]

/-- It is enough to look at the shared names, which for fixed texts are a short list. -/
theorem accounts_of_shared (shared : List String) (filtered : used.filter isShared = shared)
    (found : ∀ name ∈ shared, name ∈ locals ∨ name ∈ p.available) : p.Accounts locals used := by
  intro name mem isShared
  refine found name ?_
  rw [← filtered]
  exact List.mem_filter.2 ⟨mem, isShared⟩

theorem accounts_plain {text : String} (isName : Text.isName text = true)
    (plain : isShared text = false) : p.Accounts locals ((Expr.ident text).names g) := by
  rw [Expr.names_ident isName, accounts_cons]
  exact ⟨fun shared => by simp [plain] at shared, accounts_nil⟩

theorem accounts_shared {text : String} (isName : Text.isName text = true)
    (shared : isShared text = true) :
    p.Accounts locals ((Expr.ident text).names g) ↔ text ∈ locals ∨ text ∈ p.available := by
  rw [Expr.names_ident isName, accounts_cons]
  exact ⟨fun accounts => accounts.1 shared, fun found => ⟨fun _ => found, accounts_nil⟩⟩

theorem accounts_flatMap {α : Type} {items : List α} {uses : α → List String}
    (each : ∀ item ∈ items, p.Accounts locals (uses item)) :
    p.Accounts locals (items.flatMap uses) := by
  intro name mem isShared
  obtain ⟨item, here, used⟩ := List.mem_flatMap.1 mem
  exact each item here name used isShared

theorem Accounts.mono {locals' : List String} (accounts : p.Accounts locals used)
    (sub : locals ⊆ locals') : p.Accounts locals' used :=
  fun name mem isShared => (accounts name mem isShared).imp_left fun bound => sub bound

/-- What is left of names without some that are bound. -/
theorem accounts_filter (binds : List String) :
    p.Accounts locals (used.filter fun name => !binds.contains name) ↔
      p.Accounts (binds ++ locals) used := by
  constructor
  · intro free name mem isShared
    by_cases bound : name ∈ binds
    · exact .inl (List.mem_append_left _ bound)
    · have kept : name ∈ used.filter fun name => !binds.contains name :=
        List.mem_filter.2 ⟨mem, by simpa using bound⟩
      exact (free name kept isShared).imp_left fun bound => List.mem_append_right _ bound
  · intro inside name mem isShared
    obtain ⟨used, free⟩ := List.mem_filter.1 mem
    have unbound : name ∉ binds := by simpa using free
    rcases inside name used isShared with bound | found
    · exact .inl ((List.mem_append.1 bound).resolve_left unbound)
    · exact .inr found

/-- Behind a statement, the local that it declares is there. -/
theorem accounts_block_cons {s : Stmt} {ss : List Stmt} :
    p.Accounts locals (Stmt.blockNames g (s :: ss)) ↔
      p.Accounts locals (s.names g) ∧ p.Accounts (s.bound ++ locals) (Stmt.blockNames g ss) := by
  rw [Stmt.blockNames, accounts_append, accounts_filter]

theorem accounts_block_of_unbound {ss : List Stmt}
    (each : ∀ s ∈ ss, s.bound = [] ∧ p.Accounts locals (s.names g)) :
    p.Accounts locals (Stmt.blockNames g ss) := by
  induction ss with
  | nil => exact accounts_nil
  | cons s ss ih =>
    rw [List.forall_mem_cons] at each
    rw [accounts_block_cons, each.1.1]
    exact ⟨each.1.2, ih each.2⟩

/-- What stands behind statements may use their locals. -/
theorem accounts_block_append {ss rest : List Stmt}
    (first : p.Accounts locals (Stmt.blockNames g ss))
    (later : p.Accounts (ss.flatMap Stmt.bound ++ locals) (Stmt.blockNames g rest)) :
    p.Accounts locals (Stmt.blockNames g (ss ++ rest)) := by
  induction ss generalizing locals with
  | nil => exact later
  | cons s ss ih =>
    rw [accounts_block_cons] at first
    rw [List.cons_append, accounts_block_cons]
    refine ⟨first.1, ih first.2 (later.mono ?_)⟩
    intro name mem
    simp only [List.flatMap_cons, List.mem_append] at mem ⊢
    tauto

end Plan

end Mintage
