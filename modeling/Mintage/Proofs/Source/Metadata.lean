import Mintage.Contract.Metadata
import Mintage.Proofs.Solidity.Sound

/-! The pieces of source in the sections that tell about the tokens are sound. -/
namespace Mintage

open Layout Solidity Text

section

variable {name : String}

theorem within_parameter (plain : isPlainText name = true) :
    (Doc.text ("parameters." ++ name)).Within .fresh .code := by
  intro due
  have record : (Doc.text "parameters.").Within .fresh .fresh := Doc.within_text (by decide)
  exact (record due).joined (within_isPlainText plain due)

theorem closesLiterals_parameter (plain : isPlainText name = true) :
    closesLiterals ("parameters." ++ name) = true :=
  closesLiterals_append (by decide) (closesLiterals_of_notMem (notMem_of_isPlainText plain))

/-- A parameter of a token can be read wherever code may stand. -/
theorem isSound_parameter (plain : isPlainText name = true) :
    isSound (.code, "parameters." ++ name) = true := by
  rw [isSound, isTidy_of_tidy (within_parameter plain []), closesLiterals_parameter plain]
  rfl

/-- A parameter that is read within other code. -/
theorem isSound_reading (opening closing : String) (due : List Char)
    (opens : Doc.passes .fresh [] .fresh due opening = true)
    (closes : Doc.passes .code due .fresh [] closing = true)
    (literals : closesLiterals opening = true ∧ closesLiterals closing = true)
    (plain : isPlainText name = true) :
    isSound (.code, opening ++ ("parameters." ++ name) ++ closing) = true := by
  have opened := Doc.tidy_text opens []
  have inside := within_parameter plain due
  have closed := Doc.tidy_text closes []
  simp only [List.append_nil] at opened closed
  have whole := (opened.joined inside).joined closed
  rw [isSound, isTidy_of_tidy (whole.weaken rfl rfl), closesLiterals_append
    (closesLiterals_append literals.1 (closesLiterals_parameter plain)) literals.2]
  rfl

end

theorem sound_toText {value : Expr} (sound : AllSound value.pieces) :
    AllSound (toText value).pieces := by
  have strings : AllSound (Expr.ident "Strings").pieces := by decide
  simp (disch := decide) [toText, strings, sound]

theorem sound_toHexText {value : Expr} (sound : AllSound value.pieces) (bytes : Nat) :
    AllSound (toHexText value bytes).pieces := by
  have strings : AllSound (Expr.ident "Strings").pieces := by decide
  simp (disch := decide) [toHexText, strings, sound]

/-- A value is made a text by fixed words around its name, one set for each type. -/
theorem Parameter.sound_text {parameter : Parameter}
    (plain : isPlainText parameter.name = true) : AllSound parameter.text.pieces := by
  obtain ⟨name, type⟩ := parameter
  have field : AllSound (Expr.ident ("parameters." ++ name)).pieces :=
    Expr.sound_ident (isSound_parameter plain)
  cases type with
  | string => exact field
  | bool =>
    have choice := isSound_reading "" " ? string(\"true\") : string(\"false\")" []
      (by decide) (by decide) (by decide) plain
    rw [String.empty_append] at choice
    exact Expr.sound_ident choice
  | address =>
    exact sound_toHexText (Expr.sound_ident (isSound_reading "uint256(uint160(" "))" [')', ')']
      (by decide) (by decide) (by decide) plain)) 20
  | bytes32 =>
    exact sound_toHexText (Expr.sound_ident (isSound_reading "uint256(" ")" [')']
      (by decide) (by decide) (by decide) plain)) 32
  | _ => exact sound_toText field

namespace Plan

variable {p : Plan}

/-- The texts of a query alternate between literals and values of parameters. -/
theorem sound_queryTexts (plain : ∀ parameter ∈ p.parameters, isPlainText parameter.name = true) :
    AllSound (p.queryTexts.flatMap Expr.pieces) := by
  refine sound_flatMap fun e mem => ?_
  obtain ⟨⟨key, parameter⟩, entry, here⟩ := List.mem_flatMap.1 mem
  simp only [List.mem_cons, List.not_mem_nil, or_false] at here
  rcases here with rfl | rfl
  · exact Expr.sound_string key
  · exact Parameter.sound_text (plain parameter (List.of_mem_zip entry).2)

theorem sound_packed {texts : List Expr} (sound : AllSound (texts.flatMap Expr.pieces)) :
    AllSound (packed texts).pieces := by
  have abi : AllSound (Expr.ident "abi").pieces := by decide
  simp (disch := decide) [packed, abi, sound]

theorem sound_tokenId : AllSound tokenId.pieces := by decide

theorem sound_baseUri : AllSound p.baseUri.pieces := by
  unfold baseUri
  split
  · exact Expr.sound_string _
  · decide

/-- The address of a token is sound for templates of every shape: what comes from the template is in
literals. -/
theorem sound_uriOf (plain : ∀ parameter ∈ p.parameters, isPlainText parameter.name = true) :
    AllSound p.uriOf.pieces := by
  have number := sound_toText sound_tokenId
  unfold uriOf
  split
  · exact sound_baseUri
  · split
    · exact sound_packed (by simp [sound_baseUri, number])
    · decide
  · exact sound_packed (by simp [sound_baseUri, number, sound_queryTexts plain])
  · rename_i rest shape
    have texts : AllSound ((rest.flatMap p.tokenTexts).flatMap Expr.pieces) := by
      rw [List.flatMap_assoc]
      refine sound_flatMap fun token mem => ?_
      unfold tokenTexts
      split
      · simp
      split
      · simpa using number
      · exact sound_queryTexts plain
    exact sound_packed (sound_append.2 ⟨sound_baseUri, texts⟩)

theorem sound_uriFunction
    (plain : ∀ parameter ∈ p.parameters, isPlainText parameter.name = true) :
    AllSound p.uriFunction.pieces := by
  have header : AllSound (["tokenURI", "uint256 tokenId"].map (Role.code, ·) ++
      (["public", "view"] ++ if p.isDelegated then [] else ["override"]).map (Role.phrase, ·) ++
      (some "string memory").toList.map (Role.code, ·)) := by
    cases p.isDelegated <;> decide
  refine (Member.sound_function header).2 ?_
  simp only [uriBody, outline_cons, outline_nil, List.append_nil, List.flatMap_append,
    sound_append, sound_one, sound_when, Stmt.sound_returns]
  exact ⟨fun _ => by decide, fun _ => by decide, fun _ => by decide, sound_uriOf plain⟩

theorem sound_contractUriMembers (uri : String) :
    AllSound ((contractUriMembers uri).flatMap Member.pieces) := by
  have value : AllSound (Member.fieldWith "string" ["private"] "customContractURI"
      (.string uri)).pieces := by
    simp (disch := decide)
  have rest : AllSound ((contractUriMembers "").tail.flatMap Member.pieces) := by decide
  exact sound_append.2 ⟨value, rest⟩

/-- Of the settings, the section on addresses writes the names of the parameters only. -/
theorem sound_uriSection
    (plain : ∀ parameter ∈ p.parameters, isPlainText parameter.name = true) :
    AllSound (p.uriSection.flatMap Member.pieces) := by
  simp only [uriSection, outline_cons, outline_nil, List.append_nil, List.flatMap_append,
    sound_append, sound_one, sound_when, sound_all]
  refine ⟨by decide, ?_, ?_, fun _ => sound_uriFunction plain, ?_⟩
  · split
    · exact sound_nil
    · decide
  · split
    · decide
    · exact sound_nil
  · cases p.contractUri with
    | none => exact sound_nil
    | some uri => exact sound_contractUriMembers uri

/-- The record and its map take the names of the parameters from the settings. -/
theorem sound_parameterSection
    (plain : ∀ parameter ∈ p.parameters, isPlainText parameter.name = true) :
    AllSound (p.parameterSection.flatMap Member.pieces) := by
  unfold parameterSection
  split
  · have fields : AllSound ((p.parameters.map fun parameter =>
        ⟨parameter.type.name, [], parameter.name, none⟩).flatMap Variable.pieces) := by
      rw [List.flatMap_map]
      refine sound_flatMap fun parameter listed => ?_
      have typed : isSound (.phrase, parameter.type.name) = true := by
        cases parameter.type <;> decide
      have named := isSound_of_isPlainText (plain parameter listed)
      simp [Variable.pieces, typed, named]
    have record : AllSound (Member.declaration (.record Parameter.record (p.parameters.map
        fun parameter => ⟨parameter.type.name, [], parameter.name, none⟩))).pieces :=
      (sound_known (by decide)).2 fields
    simp only [List.flatMap_cons, List.flatMap_nil, List.append_nil, sound_append]
    exact ⟨by decide, record, by decide, by decide⟩
  · exact sound_nil

end Plan

end Mintage
