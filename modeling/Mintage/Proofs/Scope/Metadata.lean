import Mathlib.Data.List.Infix
import Mathlib.Data.List.MinMax
import Mathlib.Order.Nat
import Mintage.Proofs.Scope.Sale
import Mintage.Proofs.Template

/-! The names in the sections that tell about the tokens. -/
namespace Mintage

open Solidity

namespace Solidity

/-- No field that the text starts with is longer than the one that is taken. -/
theorem le_longestField {fields : List String} {field : String} {cs : List Char}
    (mem : field ∈ fields) (starts : field.toList <+: cs) :
    field.length ≤ longestField fields cs := by
  have kept : field ∈ fields.filter fun field => field.toList.isPrefixOf cs :=
    List.mem_filter.2 ⟨mem, List.isPrefixOf_iff_prefix.2 starts⟩
  have listed := List.mem_map_of_mem (f := String.length) kept
  exact List.le_max_of_le listed (Nat.le_refl _)

/-- The texts in front of a parameter that is read. -/
def fieldOpenings : List String := ["", "uint256(uint160(", "uint256("]

/-- The texts behind a parameter that is read. -/
def fieldClosings : List String := ["", ")", "))", " ? string(\"true\") : string(\"false\")"]

/-- Behind one of the known openings, the name of the parameter is taken out and the rest is
kept. -/
theorem withoutField_parameters (fields : List String) {opening : String}
    (known : opening ∈ fieldOpenings) (rest : List Char) :
    withoutField fields (opening.toList ++ ("parameters.".toList ++ rest)) =
      opening.toList ++ ("parameters.".toList ++ rest.drop (longestField fields rest)) := by
  simp only [fieldOpenings, List.mem_cons, List.not_mem_nil, or_false] at known
  rcases known with rfl | rfl | rfl <;> rfl

end Solidity

namespace Plan

variable {p : Plan} {g : Given} {fields locals : List String}

/-- What is left of a parameter without its name refers to the record of the parameters only. -/
theorem accounts_field_text (opening closing : String) {name : String}
    (opens : opening ∈ fieldOpenings) (closes : closing ∈ fieldClosings) (listed : name ∈ fields)
    (record : "parameters" ∈ locals) :
    p.Accounts locals
      ((Expr.ident (opening ++ ("parameters." ++ name) ++ closing)).names ⟨fields, []⟩) := by
  have chars : (opening ++ ("parameters." ++ name) ++ closing).toList =
      opening.toList ++ ("parameters.".toList ++ (name.toList ++ closing.toList)) := by
    simp only [String.toList_append, List.append_assoc]
  have long : name.toList.length ≤ longestField fields (name.toList ++ closing.toList) :=
    le_longestField listed (List.prefix_append _ _)
  have cut : (name.toList ++ closing.toList).drop
      (longestField fields (name.toList ++ closing.toList)) ∈ closing.toList.tails := by
    rw [List.drop_append, List.drop_eq_nil_of_le long, List.nil_append, List.mem_tails]
    exact List.drop_suffix _ _
  have only : ∀ opening ∈ fieldOpenings, ∀ closing ∈ fieldClosings, ∀ rest ∈ closing.toList.tails,
      (namesFrom .outside (opening.toList ++ ("parameters.".toList ++ rest))).filter isShared =
        ["parameters"] := by
    decide +kernel
  refine accounts_of_shared ["parameters"] ?_ (by simp [record])
  rw [Expr.names, chars, withoutField_parameters fields opens]
  exact only opening opens closing closes _ cut

theorem allNames_eq_flatMap (es : List Expr) : Expr.allNames g es = es.flatMap (Expr.names g) := by
  induction es with
  | nil => rfl
  | cons e es ih => rw [Expr.allNames_cons, List.flatMap_cons, ih]

theorem accounts_toText (strings : "Strings" ∈ p.available) {value : Expr}
    (names : p.Accounts locals (value.names g)) : p.Accounts locals ((toText value).names g) := by
  simp (disch := decide) [toText, Expr.method, accounts_shared, strings, names]

theorem accounts_toHexText (strings : "Strings" ∈ p.available) {value : Expr} (bytes : Nat)
    (names : p.Accounts locals (value.names g)) :
    p.Accounts locals ((toHexText value bytes).names g) := by
  simp (disch := decide) [toHexText, Expr.method, accounts_shared, strings, names]

theorem accounts_parameter {parameter : Parameter} (listed : parameter.name ∈ fields)
    (record : "parameters" ∈ locals)
    (strings : parameter.type.isConverted = true → "Strings" ∈ p.available) :
    p.Accounts locals (parameter.text.names ⟨fields, []⟩) := by
  obtain ⟨name, type⟩ := parameter
  have plain : p.Accounts locals ((Expr.ident ("parameters." ++ name)).names ⟨fields, []⟩) := by
    have field := accounts_field_text (p := p) "" "" (by decide) (by decide) listed record
    rwa [String.empty_append, String.append_empty] at field
  cases type with
  | string => exact plain
  | bool =>
    have field := accounts_field_text (p := p) "" " ? string(\"true\") : string(\"false\")"
      (by decide) (by decide) listed record
    rwa [String.empty_append] at field
  | address =>
    refine accounts_toHexText (strings rfl) _ ?_
    exact accounts_field_text "uint256(uint160(" "))" (by decide) (by decide) listed record
  | bytes32 =>
    refine accounts_toHexText (strings rfl) _ ?_
    exact accounts_field_text "uint256(" ")" (by decide) (by decide) listed record
  | _ => exact accounts_toText (strings rfl) plain

theorem mem_queryTexts {e : Expr} (mem : e ∈ p.queryTexts) :
    (∃ key, e = .string key) ∨ ∃ parameter ∈ p.parameters, e = parameter.text := by
  obtain ⟨⟨key, parameter⟩, entry, here⟩ := List.mem_flatMap.1 mem
  simp only [List.mem_cons, List.not_mem_nil, or_false] at here
  rcases here with rfl | rfl
  · exact .inl ⟨key, rfl⟩
  · exact .inr ⟨parameter, (List.of_mem_zip entry).2, rfl⟩

/-- Code that reads the parameters of the token has them as a local. -/
theorem accounts_query (listed : ∀ parameter ∈ p.parameters, parameter.name ∈ fields)
    (record : p.hasParameters = true → "parameters" ∈ locals)
    (strings : p.parameters.any (·.type.isConverted) = true → "Strings" ∈ p.available) :
    p.Accounts locals (Expr.allNames ⟨fields, []⟩ p.queryTexts) := by
  rw [allNames_eq_flatMap]
  refine accounts_flatMap fun e mem => ?_
  rcases mem_queryTexts mem with ⟨key, rfl⟩ | ⟨parameter, own, rfl⟩
  · exact accounts_nil
  · have has : p.hasParameters = true := by
      simpa [hasParameters] using List.ne_nil_of_mem own
    refine accounts_parameter (listed parameter own) (record has) fun converted => strings ?_
    exact List.any_eq_true.2 ⟨parameter, own, converted⟩

theorem accounts_packed {pieces : List Expr}
    (names : p.Accounts locals (Expr.allNames g pieces)) :
    p.Accounts locals ((packed pieces).names g) := by
  simp (disch := decide) [packed, Expr.apply, Expr.method, accounts_plain, names]

theorem accounts_baseUri : p.Accounts locals (p.baseUri.names g) := by
  unfold baseUri
  split
  · exact accounts_nil
  · rename_i own
    have base : "_baseURI" ∈ p.available := by simp [available, Plan.names, own]
    simp (disch := decide) [Expr.apply, accounts_shared, base]

theorem accounts_tokenId : p.Accounts locals (tokenId.names g) :=
  accounts_plain (by decide) (by decide)

theorem strings_available (uses : p.usesStrings = true) : "Strings" ∈ p.available := by
  simp [available, provided, uses]

/-- All names in an address are accounted for, whatever the shape of the template. -/
theorem accounts_uriOf (known : p.KnowsUri) (overrides : p.overridesUri = true)
    (listed : ∀ parameter ∈ p.parameters, parameter.name ∈ fields)
    (record : p.readsParameters = true → "parameters" ∈ locals) :
    p.Accounts locals (p.uriOf.names ⟨fields, []⟩) := by
  have base : p.Accounts locals (p.baseUri.names ⟨fields, []⟩) := accounts_baseUri
  unfold uriOf
  split
  · exact base
  · rename_i shape
    split
    · rename_i delegated
      have strings : "Strings" ∈ p.available :=
        strings_available (by simp [usesStrings, overrides, shape, delegated])
      exact accounts_packed (by simp [base, accounts_toText strings accounts_tokenId])
    · have number : p.Accounts locals (tokenId.names ⟨fields, []⟩) := accounts_tokenId
      simp (disch := decide) [Expr.method, accounts_plain, number]
  · rename_i shape
    have strings : "Strings" ∈ p.available :=
      strings_available (by simp [usesStrings, overrides, shape])
    have query : p.Accounts locals (Expr.allNames ⟨fields, []⟩ p.queryTexts) :=
      accounts_query listed (fun _ => record (by simp [readsParameters, shape])) fun _ => strings
    exact accounts_packed (by simp [base, accounts_toText strings accounts_tokenId, query])
  · rename_i rest shape
    have strings {token : Template.Token} (mem : token ∈ rest)
        (converts : p.converts token = true) : "Strings" ∈ p.available := by
      have some : rest.any p.converts = true := List.any_eq_true.2 ⟨token, mem, converts⟩
      exact strings_available (by simp [usesStrings, overrides, shape, some])
    have pieces : p.Accounts locals (Expr.allNames ⟨fields, []⟩ (rest.flatMap p.tokenTexts)) := by
      rw [allNames_eq_flatMap, List.flatMap_assoc]
      refine accounts_flatMap fun token mem => ?_
      rw [← allNames_eq_flatMap]
      cases token with
      | text s => exact accounts_nil
      | slot name =>
        rw [tokenTexts]
        split
        · rename_i number
          have needed := strings mem (by simp [converts, number])
          simp [accounts_toText needed accounts_tokenId]
        · rename_i other
          have slot : name = Template.parametersSlot :=
            (known.slots rest shape name mem).resolve_left other
          have reads (has : p.hasParameters = true) : p.readsParameters = true := by
            simp [readsParameters, shape, has, ← slot, mem]
          refine accounts_query listed (fun has => record (reads has)) fun typed => strings mem ?_
          simp [converts, typed]
    exact accounts_packed (by simp [base, pieces])

/-- Addresses read parameters only where there are some. -/
theorem hasParameters_of_reads (known : p.KnowsUri) (reads : p.readsParameters = true) :
    p.hasParameters = true := by
  unfold readsParameters at reads
  split at reads
  · cases reads
  · rename_i query shape
    subst reads
    exact known.query shape
  · rw [Bool.and_eq_true] at reads
    exact reads.1

/-- Where the record is read, it is declared in front of the return. -/
theorem accounts_uriReturn (known : p.KnowsUri) (overrides : p.overridesUri = true)
    (listed : ∀ parameter ∈ p.parameters, parameter.name ∈ fields) :
    p.Accounts locals (Stmt.blockNames ⟨fields, []⟩ (outline [
      .when p.readsParameters
        (.declare (Parameter.record ++ " memory") "parameters" (Parameter.stored tokenId)),
      .one (.returns p.uriOf)])) := by
  cases reads : p.readsParameters with
  | false =>
    refine accounts_block_cons.2 ⟨accounts_uriOf known overrides listed ?_, accounts_nil⟩
    simp [reads]
  | true =>
    have has := hasParameters_of_reads known reads
    have record : "TokenParameters" ∈ p.available ∧ "tokenParametersMap" ∈ p.available := by
      simp [available, names, has]
    have number : p.Accounts locals (tokenId.names ⟨fields, []⟩) := accounts_tokenId
    have type : p.Accounts locals (namesIn (Parameter.record ++ " memory")) :=
      accounts_of_shared ["TokenParameters"] rfl (by simp [record])
    refine accounts_block_cons.2 ⟨?_, accounts_block_cons.2 ⟨?_, accounts_nil⟩⟩
    · simp (disch := decide) [Parameter.stored, Parameter.map, accounts_shared, type, record,
        number]
    · exact accounts_uriOf known overrides listed fun _ => List.mem_cons_self

/-- The function has the number as its argument, and declares all else itself. -/
theorem accounts_uriFunction (known : p.KnowsUri) (overrides : p.overridesUri = true)
    (listed : ∀ parameter ∈ p.parameters, parameter.name ∈ g.fields) :
    p.Accounts [] (Member.names g p.uriFunction) := by
  have header : p.Accounts [] (argumentTypes ["uint256 tokenId"] ++
      (["public", "view"] ++ if p.isDelegated then [] else ["override"]).flatMap namesIn ++
      ((some "string memory").map namesIn).getD []) := by
    split <;> exact accounts_of_shared [] rfl (by simp)
  refine accounts_function header ?_
  unfold uriBody
  cases stores : p.storesUris with
  | false => exact accounts_uriReturn known overrides listed
  | true =>
    have map : "tokenURIMap" ∈ p.available := by simp [available, names, stores]
    refine accounts_block_cons.2 ⟨?_, accounts_block_cons.2 ⟨?_, ?_⟩⟩
    · exact accounts_of_shared ["tokenURIMap"] rfl (by simp [map])
    · exact accounts_of_shared ["storedURI", "storedURI"] rfl (by simp)
    · exact accounts_uriReturn known overrides listed

theorem accounts_parameterSection :
    p.Accounts [] (p.parameterSection.flatMap (Member.names g)) := by
  unfold parameterSection
  split
  · rename_i has
    have record : "TokenParameters" ∈ p.available ∧ "tokenParametersMap" ∈ p.available := by
      simp [available, names, has]
    refine accounts_flatMap fun m mem => ?_
    simp only [List.mem_cons, List.not_mem_nil, or_false] at mem
    rcases mem with rfl | rfl | rfl | rfl
    · exact accounts_nil
    · refine accounts_flatMap fun v member => ?_
      obtain ⟨parameter, -, rfl⟩ := List.mem_map.1 member
      have types (type : ValueType) : (namesIn type.name).filter isShared = [] := by
        cases type <;> rfl
      have type : p.Accounts [] (namesIn parameter.type.name) :=
        accounts_of_shared [] (types _) (by simp)
      simpa [Variable.names, Variable.headerNames] using type
    · exact accounts_field _ (accounts_of_shared ["TokenParameters"] rfl (by simp [record]))
    · exact accounts_of_shared ["TokenParameters", "tokenParametersMap"] rfl (by simp [record])
  · exact accounts_nil

/-- Each part of the section accounts for its names under the condition under which it is there. -/
theorem accounts_uriSection (known : p.KnowsUri)
    (listed : ∀ parameter ∈ p.parameters, parameter.name ∈ g.fields) :
    p.Accounts [] (p.uriSection.flatMap (Member.names g)) := by
  refine accounts_flatMap fun m mem => ?_
  simp only [uriSection, outline_cons, outline_nil, List.append_nil, List.mem_append, Part.mem_one,
    Part.mem_all, Part.mem_when] at mem
  rcases mem with rfl | base | stored | ⟨overrides, rfl⟩ | description
  · exact accounts_nil
  · split at base
    · cases base
    · rename_i own
      have declared : "customBaseURI" ∈ p.available := by simp [available, names, own]
      simp only [baseUriMembers, List.mem_cons, List.not_mem_nil, or_false] at base
      rcases base with rfl | rfl | rfl
      · exact accounts_field _ (accounts_of_shared [] rfl (by simp))
      · exact accounts_of_shared ["customBaseURI"] rfl (by simp [declared])
      · exact accounts_of_shared ["customBaseURI"] rfl (by simp [declared])
  · split at stored
    · rename_i stores
      have map : "tokenURIMap" ∈ p.available := by simp [available, names, stores]
      simp only [storedUriMembers, List.mem_cons, List.not_mem_nil, or_false] at stored
      rcases stored with rfl | rfl
      · exact accounts_field _ (accounts_of_shared [] rfl (by simp))
      · exact accounts_of_shared ["tokenURIMap"] rfl (by simp [map])
    · cases stored
  · exact accounts_uriFunction known overrides listed
  · cases uri : p.contractUri with
    | none => simp [uri] at description
    | some text =>
      have declared : "customContractURI" ∈ p.available := by simp [available, names, uri]
      simp only [uri, Option.map_some, Option.getD_some, contractUriMembers, List.mem_cons,
        List.not_mem_nil, or_false] at description
      rcases description with rfl | rfl | rfl
      · exact accounts_fieldWith (by decide) _ rfl (accounts_of_shared [] rfl (by simp))
      · exact accounts_of_shared ["customContractURI"] rfl (by simp [declared])
      · exact accounts_of_shared ["customContractURI"] rfl (by simp [declared])

end Plan

end Mintage
