import Mathlib.Data.List.Infix
import Mintage.Proofs.Layout.Lines
import Mintage.Proofs.Solidity.Gathering
import Mintage.Proofs.Solidity.Regular
import Mintage.Proofs.Text.Literal

/-! Printed literals: each is one token that means its value, without line feeds, and the page holds
it as it is. -/
namespace Mintage.Solidity

open Layout Text

theorem Expr.print_string (value : String) : (string value).print = quoted value := by
  have written : (string value).print = (Sheet.blank.write (quoted value)).text := rfl
  rw [written, Sheet.text_write, Sheet.text_blank, String.empty_append]

/-- A literal that is among the texts of a node stands on its page as it is. -/
theorem Node.isInfix_quoted (node : Node) (width : Nat) {value : String}
    (mem : quoted value ∈ node.doc.texts) :
    (quoted value).toList <:+: (node.doc.render width).toList := by
  obtain ⟨ts, reads, typeset⟩ := node.doc.typeset_render width
  have other {t : String} (start : t.toList.head? ≠ some '"') : quoted value ≠ t := by
    rintro rfl
    exact start (isLiteral_quoted value).opens
  have listed := node.made.mem_of_reads reads mem (other (by decide)) (other (by decide))
  refine typeset.isInfix listed ?_
  rw [quoted, String.toList_ofList, ← List.cons_append, List.getLast?_concat]
  decide

/-- The line feed is escaped in a literal, and the carriage return is not. -/
theorem onOneLine_quoted_iff {value : String} :
    OnOneLine (quoted value) ↔ '\r' ∉ value.toList := by
  constructor
  · intro onOneLine mem
    exact (onOneLine _ ((return_mem_quoted value).2 mem)).2 rfl
  · rintro noReturn c mem
    constructor
    · rintro rfl
      exact notMem_quoted value mem
    · rintro rfl
      exact noReturn ((return_mem_quoted value).1 mem)

/-- An import with the literal of its path. -/
def importLine (path : String) : String := "import " ++ (Expr.string path).print ++ ";"

theorem notMem_importLine (path : String) : '\n' ∉ (importLine path).toList := by
  simp [importLine, Expr.print_string, notMem_quoted]

theorem unpadded_importLine (path : String) :
    unpadded (importLine path).toList = (importLine path).toList := by
  have semicolon : ";".toList = [';'] := rfl
  refine unpadded_of_getLast? ?_
  rw [importLine, String.toList_append, semicolon, List.getLast?_concat]
  decide

namespace Program

variable {p : Program}

theorem imports_mem_sections (some : p.imports ≠ []) :
    Doc.join .hardLine ((p.imports.map importLine).map .text) ∈
      (p.sections.filter (!·.2.isEmpty)).map fun part => .join part.1 part.2 := by
  refine List.mem_map.2 ⟨(.hardLine, p.imports.map fun path => .text (importLine path)), ?_, ?_⟩
  · exact List.mem_filter.2 ⟨by simp [sections, importLine, Expr.print_string], by simpa using some⟩
  · rw [List.map_map]
    rfl

/-- The imports stand one below the other, each on a line of its own. -/
theorem isInfix_imports (p : Program) (width : Nat) :
    (p.imports.map fun path => (importLine path).toList) <:+:
      fileLines (p.doc.render width).toList := by
  by_cases empty : p.imports = []
  · rw [empty]
    exact List.nil_infix
  obtain ⟨ss, drawnDoc, page⟩ := p.doc.exists_render width
  have split : p.doc = .concat [p.content, .hardLine] := rfl
  rw [split] at drawnDoc
  obtain ⟨above, _, drawn, ⟨feed, _, line, rfl, rfl⟩, rfl⟩ := drawnDoc
  rw [List.append_nil, draws_hardLine line] at page
  obtain ⟨own, drawnOwn, placed⟩ := isInfix_strokeLines (imports_mem_sections empty) drawn
  have some : p.imports.map importLine ≠ [] := by simpa using empty
  have lines : strokeLines [] own = p.imports.map fun path => (importLine path).toList := by
    rw [strokeLines_of_draws some drawnOwn]
    simp only [List.map_map, Function.comp_def, unpadded_importLine]
  have whole : (strokeLines [] own).flatMap (Text.pieces (· == '\n')) = strokeLines [] own := by
    refine flatMap_pieces_lines ?_
    rw [lines]
    exact List.forall_mem_map.2 fun path _ => notMem_importLine path
  have written : (p.doc.render width).toList = continued [] (above ++ [.newLine 0]) := by
    rw [page, continued]
    split <;> rfl
  rw [written, continued_eq_flatMap, fileLines_flatMap_eq_flatMap, ← lines, ← whole]
  exact placed.flatMap _

end Program

/-- The printed literal of a value is one token that means the value. No line feed is in it, and it
is on one line exactly if the value has no carriage returns. Where it is among the texts of a node
it stands as it is on every page of the node, and the imports of a program stand in lines of their
own, each with the literal of its path. -/
theorem literals_intact (value : String) :
    IsLiteral (Expr.string value).print value ∧
    '\n' ∉ (Expr.string value).print.toList ∧
    (OnOneLine (Expr.string value).print ↔ '\r' ∉ value.toList) ∧
    (∀ (node : Node) (width : Nat), (Expr.string value).print ∈ node.doc.texts →
      (Expr.string value).print.toList <:+: (node.doc.render width).toList) ∧
    ∀ p : Program,
      (p.imports.map fun path => ("import " ++ (Expr.string path).print ++ ";").toList) <:+:
        fileLines p.print.toList := by
  rw [Expr.print_string]
  exact ⟨isLiteral_quoted value, notMem_quoted value, onOneLine_quoted_iff,
    fun node width mem => node.isInfix_quoted width mem, fun p => p.isInfix_imports pageWidth⟩

/-- A value of everything that is escaped. -/
def sampleTrick : String := "\"\\\n\\n"

theorem literals_sampleTrick :
    (Expr.string sampleTrick).print = "\"\\\"\\\\\\n\\\\n\"" ∧
      IsLiteral (Expr.string sampleTrick).print sampleTrick ∧
      OnOneLine (Expr.string sampleTrick).print := by
  obtain ⟨literal, -, onOneLine, -⟩ := literals_intact sampleTrick
  exact ⟨by decide, literal, onOneLine.2 (by decide)⟩

/-- A carriage return is written as it is, in a literal and in an import. -/
theorem literal_sampleReturn :
    ¬ OnOneLine (Expr.string "a\rb").print ∧
      (Program.mk none none ["a\rb"] []).print = "import \"a\rb\";\n" :=
  ⟨fun onOneLine => (onOneLine '\r' (by decide)).2 rfl, by decide⟩

end Mintage.Solidity
