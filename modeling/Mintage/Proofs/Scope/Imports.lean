import Mintage.Proofs.Contract.Calls
import Mintage.Proofs.Contract.Names
import Mintage.Proofs.Scope.Resolution
import Mintage.Proofs.Withdrawal

/-! What a file imports for some settings only, and whether the contract uses it. -/
namespace Mintage

open Solidity Template

section

variable {g : Given} {name : String}

namespace Solidity

theorem Expr.mem_allNames {e : Expr} {es : List Expr} (mem : e ∈ es) (used : name ∈ e.names g) :
    name ∈ Expr.allNames g es := by
  rw [Plan.allNames_eq_flatMap]
  exact List.mem_flatMap.2 ⟨e, mem, used⟩

/-- The members of a library are called under its name. -/
theorem Expr.mem_names_method (isName : Text.isName name = true) (function : String)
    (arguments : List Expr) : name ∈ ((Expr.ident name).method function arguments).names g := by
  simp [Expr.method, Expr.names_ident isName]

theorem Stmt.mem_blockNames {s : Stmt} {ss : List Stmt} (mem : s ∈ ss) (used : name ∈ s.names g)
    (free : ∀ s ∈ ss, name ∉ s.bound) : name ∈ Stmt.blockNames g ss := by
  induction ss with
  | nil => cases mem
  | cons first ss ih =>
    rw [List.forall_mem_cons] at free
    rw [Stmt.blockNames]
    rcases List.mem_cons.1 mem with rfl | mem
    · exact List.mem_append_left _ used
    · refine List.mem_append_right _ (List.mem_filter.2 ⟨ih mem free.2, ?_⟩)
      simpa using free.1

theorem Member.mem_names_function {function : String} {arguments modifiers : List String}
    {result : Option String} {body : List Stmt} (used : name ∈ Stmt.blockNames ⟨g.fields, []⟩ body)
    (free : name ∉ argumentNames arguments) :
    name ∈ (Member.function function arguments modifiers result body).names g := by
  refine List.mem_append_right _ (List.mem_filter.2 ⟨used, ?_⟩)
  simpa using free

theorem Contract.mem_names {c : Contract} {m : Member} (mem : m ∈ c.body)
    (used : name ∈ m.names g) : name ∈ c.names g :=
  List.mem_append_right _ (List.mem_flatMap.2 ⟨m, mem, used⟩)

end Solidity

/-- Values of the converted types are written by the library. -/
theorem Parameter.mem_names_text {parameter : Parameter}
    (converted : parameter.type.isConverted = true) : "Strings" ∈ parameter.text.names g := by
  have strings (function : String) (arguments : List Expr) :
      "Strings" ∈ ((Expr.ident "Strings").method function arguments).names g :=
    Expr.mem_names_method (by decide) function arguments
  obtain ⟨name, type⟩ := parameter
  cases type with
  | string => cases converted
  | bool => cases converted
  | _ => exact strings _ _

end

namespace Plan

variable {p : Plan} {g : Given}

theorem mem_names_toText (value : Expr) : "Strings" ∈ (toText value).names g :=
  Expr.mem_names_method (by decide) _ _

theorem text_mem_queryTexts {parameter : Parameter} (own : parameter ∈ p.parameters) :
    parameter.text ∈ p.queryTexts := by
  have length : (queryKeys (p.parameters.map (·.name))).length = p.parameters.length := by
    cases p.parameters <;> simp [queryKeys]
  have second : ((queryKeys (p.parameters.map (·.name))).zip p.parameters).map Prod.snd =
      p.parameters := List.map_snd_zip (by omega)
  rw [← second] at own
  obtain ⟨entry, mem, rfl⟩ := List.mem_map.1 own
  exact List.mem_flatMap.2 ⟨entry, mem, by simp⟩

theorem mem_names_tokenTexts {token : Token} (converts : p.converts token = true) :
    "Strings" ∈ Expr.allNames g (p.tokenTexts token) := by
  cases token with
  | text s => cases converts
  | slot name =>
    rw [tokenTexts]
    split
    · exact Expr.mem_allNames List.mem_cons_self (mem_names_toText _)
    · rename_i other
      have some : p.parameters.any (·.type.isConverted) = true := by
        simpa [Plan.converts, other] using converts
      obtain ⟨parameter, own, converted⟩ := List.any_eq_true.1 some
      exact Expr.mem_allNames (text_mem_queryTexts own) (Parameter.mem_names_text converted)

theorem mem_names_packed {pieces : List Expr} {name : String}
    (used : name ∈ Expr.allNames g pieces) : name ∈ (packed pieces).names g := by
  simp [packed, Expr.apply, Expr.method, used]

/-- Addresses that are made with the library name it, whatever their shape. -/
theorem mem_names_uriOf (uses : p.usesStrings = true) : "Strings" ∈ p.uriOf.names g := by
  have number : "Strings" ∈ (toText tokenId).names g := mem_names_toText _
  unfold usesStrings at uses
  unfold uriOf
  rw [Bool.and_eq_true] at uses
  replace uses := uses.2
  split at uses
  · cases uses
  · rename_i query shape
    cases query with
    | false =>
      have delegated : p.isDelegated = true := uses
      simp only [shape, delegated, if_true]
      exact mem_names_packed (Expr.mem_allNames (by simp) number)
    | true =>
      simp only [shape]
      exact mem_names_packed (Expr.mem_allNames (List.mem_cons_of_mem _ List.mem_cons_self) number)
  · rename_i rest shape
    obtain ⟨token, mem, converts⟩ := List.any_eq_true.1 uses
    simp only [shape]
    refine mem_names_packed ?_
    rw [Expr.allNames_cons, allNames_eq_flatMap, List.flatMap_assoc]
    refine List.mem_append_right _ (List.mem_flatMap.2 ⟨token, mem, ?_⟩)
    rw [← allNames_eq_flatMap]
    exact mem_names_tokenTexts converts

theorem mem_names_uriFunction (uses : p.usesStrings = true) :
    "Strings" ∈ Member.names g p.uriFunction := by
  have last : .returns p.uriOf ∈ p.uriBody := by simp [uriBody]
  refine Member.mem_names_function
    (Stmt.mem_blockNames last (mem_names_uriOf uses) fun s mem => ?_) (by decide)
  simp only [uriBody, outline_cons, outline_nil, List.append_nil, List.mem_append, Part.mem_one,
    Part.mem_when] at mem
  rcases mem with ⟨-, rfl⟩ | ⟨-, rfl⟩ | ⟨-, rfl⟩ | rfl <;> simp

/-- Where the library is used, the contract has a function of its own for the addresses. -/
theorem uriFunction_mem (uses : p.usesStrings = true) : p.uriFunction ∈ p.contract.body := by
  unfold usesStrings at uses
  rw [Bool.and_eq_true] at uses
  simp [contract, body, uriSection, uses.1]

theorem bound_sendAll (owner : Expr) (shares : List Share) :
    ∀ s ∈ Share.sendAll owner shares, s.bound = [] := by
  induction shares with
  | nil => simp [Share.sendAll]
  | cons share shares ih => exact List.forall_mem_cons.2 ⟨rfl, ih⟩

theorem mem_names_withdraw (receivers : p.shares ≠ []) :
    "Address" ∈ Member.names g (.function "withdraw" [] ["public", "nonReentrant"] none
      p.withdrawBody) := by
  obtain ⟨share, shares, split⟩ := List.exists_cons_of_ne_nil receivers
  refine Member.mem_names_function ?_ (by decide)
  have send : "Address" ∈ (share.send p.owner shares.isEmpty).names ⟨g.fields, []⟩ :=
    Expr.mem_names_method (by decide) _ _
  refine Stmt.mem_blockNames ?_ send (List.forall_mem_cons.2 ⟨by simp, fun s mem => ?_⟩)
  · simp [withdrawBody, split, Share.sendAll]
  · rw [bound_sendAll _ _ s mem]
    exact List.not_mem_nil

/-- The names that stand for libraries and interfaces of other files. -/
def optionalImports : List String := ["Counters", "IERC721", "IERC2981", "Strings", "Address"]

/-- A contract uses the libraries and interfaces that are provided to it, and no others. -/
theorem mem_names_iff (known : p.KnowsUri)
    (fields : ∀ parameter ∈ p.parameters, parameter.name ∈ g.fields)
    (keys : ∀ a ∈ p.allowances, a.1 ∈ g.keys) (receivers : p.earns = true → p.shares ≠ [])
    {name : String} (optional : name ∈ optionalImports) :
    name ∈ p.contract.names g ↔ name ∈ outline p.provided := by
  constructor
  · intro used
    have shared : ∀ name ∈ optionalImports, isShared name = true ∧
        ¬ "payoutAddress".toList <+: name.toList ∧ name ∉ earlyNames ++ lateNames := by
      decide
    obtain ⟨isShared, noReceiver, other⟩ := shared name optional
    have undeclared : name ∉ outline p.names := by
      rw [← declared_contract]
      exact notMem_declared noReceiver other
    have found := accounts_contract known fields keys name used isShared
    rw [available, outline_append] at found
    exact (List.mem_append.1 (found.resolve_left List.not_mem_nil)).resolve_left undeclared
  · intro offered
    simp only [provided, outline_cons, outline_nil, List.append_nil, List.mem_append,
      Part.mem_when] at offered
    rcases offered with ⟨-, rfl⟩ | ⟨-, rfl⟩ | ⟨counts, rfl⟩ | ⟨uses, rfl⟩ | ⟨earns, rfl⟩ |
      ⟨gated, rfl⟩ | ⟨royalty, rfl⟩
    · exact absurd optional (by decide)
    · exact absurd optional (by decide)
    · have attached : .declaration (.attach "Counters" "Counters.Counter") ∈ p.contract.body := by
        simp [contract, body, counts]
      have used : "Counters" ∈ namesIn "Counters" := by decide
      exact Contract.mem_names attached (List.mem_append_left _ used)
    · exact Contract.mem_names (uriFunction_mem uses) (mem_names_uriFunction uses)
    · have written : .function "withdraw" [] ["public", "nonReentrant"] none p.withdrawBody ∈
          p.contract.body := by
        simp [contract, body, payout, earns]
      exact Contract.mem_names written (mem_names_withdraw (receivers earns))
    · obtain ⟨gate, gated⟩ := Option.isSome_iff_exists.1 gated
      have field : gate.field ∈ p.contract.body := by
        simp [contract, body, minting, gated]
      refine Contract.mem_names field ?_
      rw [Gate.field, Member.names_field]
      exact List.mem_append_left _ (by decide)
    · have base : "IERC2981" ∈ p.contract.bases := by
        simp [contract, bases, royalty]
      exact List.mem_append_left _ (List.mem_flatMap.2 ⟨_, base, by decide⟩)

end Plan

namespace Settings

variable (s : Settings)

/-- What the settings put into the code as it is. -/
def given : Given := ⟨s.parameterNames, s.allowances.map fun a => Text.trim a.address⟩

/-- The template has a slot for the parameters and none for the number, and the parameters are
texts and flags, which are texts without the library. -/
structure OnlyFlags : Prop where
  template : ∃ tokens, parseUri s.tokenUri = .ok tokens ∧ .slot parametersSlot ∈ tokens ∧
    .slot tokenIdSlot ∉ tokens
  types : ∀ parameter ∈ s.parameters, parameter.type = .string ∨ parameter.type = .bool
  flag : ∃ parameter ∈ s.parameters, parameter.type = .bool

variable {s}

/-- Without a slot for the number the shape is none of the standard ones. -/
theorem uriShape_of_onlyFlags (flags : s.OnlyFlags) :
    ∃ rest, s.plan.uriShape = .custom rest ∧ .slot parametersSlot ∈ rest ∧
      .slot tokenIdSlot ∉ rest := by
  obtain ⟨tokens, accepted, query, noNumber⟩ := flags.template
  have slot : tokens.any UriShape.isSlot = true := List.any_eq_true.2 ⟨_, query, rfl⟩
  have noNumber : .slot tokenIdSlot ∉ UriShape.dropBase tokens :=
    mt UriShape.slot_mem_dropBase.1 noNumber
  refine ⟨UriShape.dropBase tokens, ?_, UriShape.slot_mem_dropBase.2 query, noNumber⟩
  have shape : s.plan.uriShape = _ := UriShape.ofTemplate_of_parseUri accepted
  rw [if_pos slot, UriShape.ofTokens, if_neg, if_neg] at shape
  · exact shape
  · intro standard
    exact noNumber (by simp [standard])
  · intro standard
    exact noNumber (by simp [standard])

/-- Texts and flags are written without the library. -/
theorem usesStrings_of_onlyFlags (flags : s.OnlyFlags) : s.plan.usesStrings = false := by
  obtain ⟨rest, shape, -, noNumber⟩ := uriShape_of_onlyFlags flags
  have none : s.plan.parameters.any (·.type.isConverted) = false := by
    refine List.any_eq_false.2 fun parameter own => ?_
    rw [Bool.not_eq_true, ValueType.isConverted_eq_false_iff]
    exact flags.types parameter own
  have unused : rest.any s.plan.converts = false := by
    refine List.any_eq_false.2 fun token mem => ?_
    cases token with
    | text text => simp [Plan.converts]
    | slot name =>
      have other : name ≠ tokenIdSlot := by
        rintro rfl
        exact noNumber mem
      simp [Plan.converts, other, none]
  simp [Plan.usesStrings, shape, unused]

/-- The rule for the import takes every slot of a flag for one that needs the library. -/
theorem needsStrings_of_onlyFlags (flags : s.OnlyFlags) : s.plan.needsStrings = true := by
  obtain ⟨rest, shape, query, -⟩ := uriShape_of_onlyFlags flags
  obtain ⟨parameter, own, type⟩ := flags.flag
  have other : s.plan.parameters.any (·.type != .string) = true :=
    List.any_eq_true.2 ⟨parameter, own, by simp [type]⟩
  have needed : rest.any s.plan.needsText = true :=
    List.any_eq_true.2 ⟨_, query, by simp [Plan.needsText, other]⟩
  simp [Plan.needsStrings, Plan.overridesUri, shape, needed]

/-- What is needed for the addresses and not used by them is for flags. -/
theorem onlyFlags_of_needs (needs : s.plan.needsStrings = true)
    (unused : s.plan.usesStrings = false) : s.OnlyFlags := by
  unfold Plan.needsStrings at needs
  unfold Plan.usesStrings at unused
  cases shape : s.plan.uriShape with
  | fixed => simp [shape] at needs
  | standard query =>
    simp only [shape] at needs unused
    rw [needs] at unused
    cases unused
  | custom rest =>
    simp only [shape, Bool.and_eq_true] at needs
    simp only [shape, needs.1, Bool.true_and, List.any_eq_false, Bool.not_eq_true] at unused
    obtain ⟨token, mem, needed⟩ := List.any_eq_true.1 needs.2
    obtain ⟨tokens, accepted, rfl⟩ := UriShape.tokens_of_custom shape
    cases token with
    | text text => cases needed
    | slot name =>
      have free := unused _ mem
      simp only [Plan.converts, Bool.or_eq_false_iff, beq_eq_false_iff_ne] at free
      have query : name = parametersSlot := (UriShape.slots_of_custom shape mem).resolve_left free.1
      have types : ∀ parameter ∈ s.parameters,
          parameter.type = .string ∨ parameter.type = .bool := fun parameter own =>
        ValueType.isConverted_eq_false_iff.1
          (Bool.not_eq_true _ ▸ List.any_eq_false.1 free.2 parameter own)
      refine ⟨⟨tokens, accepted, ?_, fun number => ?_⟩, types, ?_⟩
      · rw [← query]
        exact UriShape.slot_mem_dropBase.1 mem
      · have converted := unused _ (UriShape.slot_mem_dropBase.2 number)
        simp [Plan.converts] at converted
      · have other : s.plan.parameters.any (·.type != .string) = true := by
          simpa [Plan.needsText, free.1] using needed
        obtain ⟨parameter, own, notText⟩ := List.any_eq_true.1 other
        exact ⟨parameter, own, (types parameter own).resolve_left (by simpa using notText)⟩

variable (s)

/-- Beside what the contract uses, a file imports the library for texts by the rule for it. -/
theorem imported_iff {name : String} (optional : name ∈ Plan.optionalImports) :
    name ∈ s.program.imports.map importedName ↔
      name ∈ outline s.plan.provided ∨ name = "Strings" ∧ s.plan.needsStrings = true := by
  have foundation : name ≠ s.plan.foundation.contract := by
    rintro rfl
    revert optional
    cases s.plan.foundation <;> decide
  have own : s.plan.ownRoyalty.isSome = true → s.plan.isDelegated = false := by
    unfold Plan.ownRoyalty
    split <;> simp_all
  rw [program, Plan.names_imports]
  simp only [Plan.optionalImports, List.mem_cons, List.not_mem_nil, or_false] at optional
  rcases optional with rfl | rfl | rfl | rfl | rfl
  · simp [Plan.provided, foundation]
  · simp [Plan.provided, foundation]
  · simp [Plan.provided, foundation]
    exact own
  · simp [Plan.provided, foundation]
    exact Plan.needsStrings_of_uses
  · simp [Plan.provided, foundation]

theorem used_iff {name : String} (optional : name ∈ Plan.optionalImports) :
    name ∈ s.plan.contract.names s.given ↔ name ∈ outline s.plan.provided := by
  have keys : ∀ a ∈ s.plan.allowances, a.1 ∈ s.given.keys := by
    intro a mem
    obtain ⟨allowance, own, rfl⟩ := List.mem_map.1 mem
    exact List.mem_map_of_mem own
  have receivers (earns : s.plan.earns = true) : s.plan.shares ≠ [] := by
    obtain ⟨others, last, split⟩ := exists_last_share s
    rw [earns_plan] at earns
    simp [plan, earns, split]
  exact Plan.mem_names_iff s.knowsUri_plan (fun parameter mem => List.mem_map_of_mem mem) keys
    receivers optional

/-- What is imported for some settings only is used, but for the library for texts where the
addresses tell flags only; and then the function `tokenURI` does not use it. -/
theorem imports_used :
    (∀ name ∈ Plan.optionalImports,
      name ∈ s.program.imports.map importedName ∧ name ∉ s.plan.contract.names s.given ↔
        name = "Strings" ∧ s.OnlyFlags) ∧
    ("Strings" ∈ s.program.imports.map importedName ∧
      (∀ m ∈ s.plan.contract.body, m.name? = some "tokenURI" → "Strings" ∉ m.names s.given) ↔
        s.OnlyFlags) := by
  have strings : "Strings" ∈ Plan.optionalImports := by decide
  have provided : "Strings" ∈ outline s.plan.provided ↔ s.plan.usesStrings = true := by
    simp [Plan.provided]
  have flags : s.plan.needsStrings = true ∧ ¬ s.plan.usesStrings = true ↔ s.OnlyFlags := by
    rw [Bool.not_eq_true]
    constructor
    · rintro ⟨needs, unused⟩
      exact onlyFlags_of_needs needs unused
    · intro flags
      exact ⟨needsStrings_of_onlyFlags flags, usesStrings_of_onlyFlags flags⟩
  constructor
  · intro name optional
    rw [imported_iff s optional, used_iff s optional]
    constructor
    · rintro ⟨imported, unused⟩
      obtain ⟨rfl, needs⟩ := imported.resolve_left unused
      exact ⟨rfl, flags.1 ⟨needs, mt provided.2 unused⟩⟩
    · rintro ⟨rfl, only⟩
      obtain ⟨needs, unused⟩ := flags.2 only
      exact ⟨.inr ⟨rfl, needs⟩, mt provided.1 unused⟩
  · rw [imported_iff s strings]
    constructor
    · rintro ⟨imported, unused⟩
      have free : ¬ s.plan.usesStrings = true := fun uses =>
        unused _ (Plan.uriFunction_mem uses) rfl (Plan.mem_names_uriFunction uses)
      exact flags.1 ⟨(imported.resolve_left (mt provided.1 free)).2, free⟩
    · intro only
      obtain ⟨needs, unused⟩ := flags.2 only
      refine ⟨.inr ⟨rfl, needs⟩, fun m mem _ used => unused ?_⟩
      exact provided.1 ((used_iff s strings).1 (Contract.mem_names mem used))

/-- A contract whose addresses tell a flag. -/
def sampleFlag : Settings where
  __ := blank
  tokenUri := "https://example.com/\x7bparameters\x7d"
  parameters := [⟨"rare", .bool⟩]

theorem imports_sampleFlag :
    "Strings" ∈ Plan.optionalImports ∧ sampleFlag.OnlyFlags ∧
      "Strings" ∈ sampleFlag.program.imports.map importedName ∧
      "Strings" ∉ sampleFlag.plan.contract.names sampleFlag.given := by
  have optional : "Strings" ∈ Plan.optionalImports := by decide
  have only : sampleFlag.OnlyFlags := by
    refine ⟨⟨[.text "https://example.com/", .slot parametersSlot], ?_, ?_, ?_⟩, ?_, ?_⟩
    · decide +kernel
    · decide
    · decide
    · decide
    · decide
  exact ⟨optional, only, (sampleFlag.imports_used.1 "Strings" optional).2 ⟨rfl, only⟩⟩

/-- The library for texts is imported for an address that is made without it. -/
theorem strings_unused_sampleFlag :
    Dependencies.openZeppelin "utils/Strings" ∈ sampleFlag.program.imports ∧
      sampleFlag.plan.overridesUri = true ∧
      "Strings" ∉ Member.names sampleFlag.given sampleFlag.plan.uriFunction ∧
      "Strings" ∉ sampleFlag.plan.contract.names sampleFlag.given := by
  decide +kernel

end Settings

end Mintage
