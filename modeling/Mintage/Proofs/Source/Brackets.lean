import Mintage.Proofs.Solidity.Ending
import Mintage.Proofs.Source.Program

/-! The source of a contract nests its brackets and ends with the contract. -/
namespace Mintage

open Layout Solidity Text

namespace Plan

variable {p : Plan}

theorem program_body (p : Plan) : p.program.body =
    p.registryContracts.map Item.contract ++
      [Item.contract p.contract, .comment (.note Product.attribution)] := by
  simp [program, Part.items]

theorem declares_program (p : Plan) : p.program.body.flatMap Item.declares =
    p.registryContracts.map Contract.name ++ [p.contractName] := by
  have registry : (p.registryContracts.map Item.contract).flatMap Item.declares =
      p.registryContracts.map Contract.name := by
    rw [List.flatMap_map, List.map_eq_flatMap]
    rfl
  rw [program_body, List.flatMap_append, registry]
  rfl

/-- The program without the comment at its end. -/
def declarations (p : Plan) : Program :=
  { p.program with body := p.registryContracts.map .contract ++ [.contract p.contract] }

theorem orderly_declarations (plain : p.Plain) : p.declarations.Orderly := by
  have whole := orderly_program plain
  refine ⟨whole.license, whole.pragma, fun i mem => whole.items i ?_⟩
  rw [program_body]
  rcases List.mem_append.1 mem with mem | mem
  · exact List.mem_append_left _ mem
  · exact List.mem_append_right _ (List.mem_cons.2 (.inl (List.mem_singleton.1 mem)))

/-- Behind the main contract there is only the comment. -/
theorem endsWith_declarations (plain : p.Plain) :
    EndsWith p.contractName p.declarations.content.lexemes := by
  have orderly := orderly_declarations plain
  have all (m : Member) (mem : m ∈ p.contract.body) (piece : Piece) (own : piece ∈ m.pieces) :
      isTidy piece = true :=
    isTidy_of_isSound (sound_body plain piece (List.mem_flatMap.2 ⟨m, mem, own⟩))
  have registry := Declares.flatMap fun i mem =>
    Item.declares_doc (orderly.items i (List.mem_append_left [Item.contract p.contract] mem))
  have before := (Program.declares_preamble orderly).append registry
  rw [Doc.lexemes, Program.gather_content, declarations, List.flatMap_append,
    List.flatMap_singleton, ← List.append_assoc]
  exact Contract.endsWith_doc named_contract all (nested_of_unclosed before.closes)

theorem doc_attribution : (Comment.note Product.attribution).doc =
    .concat [.text ("// " ++ Product.attribution)] := by
  rfl

/-- No word or sign is in the comment. -/
theorem lexemes_declarations (p : Plan) :
    p.declarations.content.lexemes = p.program.doc.lexemes := by
  have nothing : (Item.comment (.note Product.attribution)).doc.gather
      (fun t => lexemes t.toList) = [] := by decide
  have split : p.program.body =
      p.declarations.body ++ [Item.comment (.note Product.attribution)] := by
    simp [program_body, declarations]
  simp only [Doc.lexemes, Program.gather_content, Program.gather_doc, split, List.flatMap_append,
    List.flatMap_singleton, nothing, List.append_nil]
  rfl

/-- What the strokes behind the last brace write. -/
theorem spell_attribution :
    spell [Stroke.text "\x7d", .newLine 0, .newLine 0, .text ("// " ++ Product.attribution),
      .newLine 0] =
      ("\x7d" ++ ("\n\n// " ++ Product.attribution ++ "\n")).toList := by
  decide

end Plan

namespace Settings

variable {s : Settings}

/-- Behind its last brace a source holds a blank line and the attribution. -/
theorem exists_source_eq (plain : s.Plain) :
    ∃ text, s.source = text ++ "\x7d" ++ ("\n\n// " ++ Product.attribution ++ "\n") ∧
      lexemes (text ++ "\x7d").toList = s.plan.declarations.content.lexemes := by
  obtain ⟨ss, drawn, written⟩ := s.program.doc.exists_render pageWidth
  obtain ⟨front, comment, inside, drawnComment, rfl⟩ :=
    Program.draws_note s.plan.program_body drawn
  rw [Plan.doc_attribution] at drawnComment
  obtain ⟨_, _, rfl, rfl, rfl⟩ := drawnComment
  have visible (more : List Stroke) : endsLine (.text "\x7d" :: more) = false := rfl
  refine ⟨String.ofList (spell front), String.toList_injective ?_, ?_⟩
  · rw [spell_append front (visible _)] at written
    rw [String.append_assoc, String.toList_append, String.toList_ofList, ← Plan.spell_attribution]
    exact written
  · have chars : (String.ofList (spell front) ++ "\x7d").toList =
        spell (front ++ [Stroke.text "\x7d"]) := by
      rw [spell_append front (visible []), String.toList_append, String.toList_ofList]
      rfl
    have scans := Program.scans_content (Plan.orderly_declarations plain.plan)
    rw [chars, lexemes, run_spell]
    exact (scans 0 _ inside .code rfl).2

/-- The brackets of a source nest, no contract is declared within brackets, and the last one is that
of the title. Its closing brace, a blank line and the attribution end the source. -/
theorem source_nested (plain : s.Plain) :
    Nested (lexemes s.source.toList) ∧
      (∃ earlier, contracts 0 (lexemes s.source.toList) =
        (earlier ++ [contractName s.tokenName]).map ((0, ·))) ∧
      ∃ text, s.source = text ++ "\x7d" ++ ("\n\n// " ++ Product.attribution ++ "\n") ∧
        lexemes s.source.toList = lexemes (text ++ "\x7d").toList ∧
        EndsWith (contractName s.tokenName) (lexemes (text ++ "\x7d").toList) := by
  have orderly := Plan.orderly_program plain.plan
  have source : lexemes s.source.toList = s.plan.program.doc.lexemes :=
    Doc.lexemes_render (Program.scans_doc orderly) pageWidth
  have declares := Program.declares_doc orderly
  obtain ⟨text, split, told⟩ := exists_source_eq plain
  refine ⟨?_, ⟨s.plan.registryContracts.map Contract.name, ?_⟩, text, split, ?_, ?_⟩
  · rw [source]
    exact nested_of_unclosed declares.closes
  · have listed := declares.lists []
    rw [List.append_nil, s.plan.declares_program] at listed
    rw [source]
    exact listed.trans (List.append_nil _)
  · rw [source, told, Plan.lexemes_declarations]
  · rw [told]
    exact Plan.endsWith_declarations plain.plan

/-- Settings with brackets and quotes wherever they may stand. -/
def sampleTangle : Settings :=
  { blank with
    tokenName := "1 \x7b \"Tangle\" ("
    symbol := "]\\\""
    price := some "0.1"
    contractUri := some "\x7d\n\x7d"
    parameters := [⟨"size", .uint8⟩]
    payouts := [⟨"0xA1", 40⟩]
    allowances := [⟨"0xB2", 3⟩] }

theorem source_sampleTangle :
    sampleTangle.Plain ∧ Nested (lexemes sampleTangle.source.toList) ∧
      ∃ earlier, contracts 0 (lexemes sampleTangle.source.toList) =
        (earlier ++ ["Tangle"]).map ((0, ·)) := by
  have plain : sampleTangle.Plain := ⟨by decide, by decide, by decide⟩
  have name : contractName sampleTangle.tokenName = "Tangle" := by decide
  obtain ⟨nested, declared, -⟩ := source_nested plain
  rw [name] at declared
  exact ⟨plain, nested, declared⟩

end Settings

end Mintage
