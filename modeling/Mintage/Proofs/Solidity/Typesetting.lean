import Mintage.Proofs.Layout.Typeset
import Mintage.Proofs.Solidity.Pieces

/-! The page of a program holds its texts and nothing else, whatever the width of the page. -/
namespace Mintage.Layout

open Solidity

mutual

/-- The texts of a document laid out on one line. -/
def Doc.texts : Doc → List String
  | .nil => []
  | .text s => [s]
  | .line _ => []
  | .concat parts => Doc.allTexts parts
  | .indent inner => inner.texts
  | .group _ inner => inner.texts
  | .ifBreak _ flat => flat.texts

def Doc.allTexts : List Doc → List String
  | [] => []
  | part :: parts => part.texts ++ Doc.allTexts parts

end

theorem Doc.allTexts_eq_flatMap (parts : List Doc) :
    Doc.allTexts parts = parts.flatMap Doc.texts := by
  induction parts with
  | nil => rfl
  | cons part parts ih => rw [Doc.allTexts, List.flatMap_cons, ih]

variable {Q : String → Prop}

theorem reads_openBrace {ts : List String} (reads : openBrace.Reads ts) :
    ts = ["\x7b"] ∨ ts = [" \x7b"] := by
  rcases reads with ⟨_, _, rfl, ⟨_, _, rfl, rfl, rfl⟩, rfl⟩ | rfl
  · exact .inl rfl
  · exact .inr rfl

mutual

/-- However a brace is opened, a function that does not see the space in front of it finds the same
in the texts. -/
theorem Doc.Made.flatMap_reads {α : Type} {f : String → List α} (brace : f "\x7b" = f " \x7b") :
    ∀ (doc : Doc) {ts : List String}, doc.Made Q → doc.Reads ts →
      ts.flatMap f = doc.texts.flatMap f
  | .nil, _, _, reads => by
    cases reads
    rfl
  | .text _, _, _, reads => by
    cases reads
    rfl
  | .line _, _, _, reads => by
    cases reads
    rfl
  | .concat parts, _, made, reads => Doc.AllMade.flatMap_reads brace parts made reads
  | .indent inner, _, made, reads => Doc.Made.flatMap_reads brace inner made reads
  | .group _ inner, _, made, reads => Doc.Made.flatMap_reads brace inner made reads
  | .ifBreak broken flat, ts, made, reads => by
    rw [Doc.Made] at made
    have isBrace := made.1
    rw [isBrace] at reads ⊢
    rcases reads_openBrace reads with rfl | rfl
    · simpa [openBrace, Doc.texts] using brace
    · rfl

theorem Doc.AllMade.flatMap_reads {α : Type} {f : String → List α} (brace : f "\x7b" = f " \x7b") :
    ∀ (parts : List Doc) {ts : List String}, Doc.AllMade Q parts → Doc.ReadsAll parts ts →
      ts.flatMap f = (Doc.allTexts parts).flatMap f
  | [], _, _, reads => by
    cases reads
    rfl
  | part :: parts, _, made, ⟨first, rest, reads, readsAll, same⟩ => by
    rw [Doc.AllMade] at made
    rw [same, List.flatMap_append, Doc.Made.flatMap_reads brace part made.1 reads,
      Doc.AllMade.flatMap_reads brace parts made.2 readsAll, Doc.allTexts, List.flatMap_append]

end

/-- A text that opens no brace is in every reading. -/
theorem Doc.Made.mem_of_reads {doc : Doc} (made : doc.Made Q) {ts : List String}
    (reads : doc.Reads ts) {t : String} (mem : t ∈ doc.texts) (brace : t ≠ "\x7b")
    (spacedBrace : t ≠ " \x7b") : t ∈ ts := by
  have kept (us : List String) : us.flatMap (fun u => if u = t then [u] else []) =
      us.filter (· = t) := by
    induction us with
    | nil => rfl
    | cons u us ih => by_cases same : u = t <;> simp [same, ih]
  have same : ts.flatMap (fun u => if u = t then [u] else []) =
      doc.texts.flatMap fun u => if u = t then [u] else [] :=
    made.flatMap_reads (by simp [brace.symm, spacedBrace.symm]) doc reads
  have found : t ∈ doc.texts.filter (· = t) := by simpa using mem
  rw [← kept, ← same, kept] at found
  exact (List.mem_filter.1 found).1

mutual

/-- Whichever way a document is read, no text comes up that it is not made of. -/
theorem Doc.Made.of_reads : ∀ (doc : Doc) {ts : List String}, doc.Made Q → doc.Reads ts →
    ∀ t ∈ ts, Q t
  | .nil, _, _, reads => by
    cases reads
    exact nofun
  | .text _, _, made, reads => by
    cases reads
    exact List.forall_mem_singleton.2 made
  | .line _, _, _, reads => by
    cases reads
    exact nofun
  | .concat parts, _, made, reads => Doc.AllMade.of_reads parts made reads
  | .indent inner, _, made, reads => Doc.Made.of_reads inner made reads
  | .group _ inner, _, made, reads => Doc.Made.of_reads inner made reads
  | .ifBreak broken flat, _, made, reads => by
    rw [Doc.Made] at made
    rcases reads with reads | reads
    · exact Doc.Made.of_reads broken made.2.1 reads
    · exact Doc.Made.of_reads flat made.2.2 reads

theorem Doc.AllMade.of_reads : ∀ (parts : List Doc) {ts : List String}, Doc.AllMade Q parts →
    Doc.ReadsAll parts ts → ∀ t ∈ ts, Q t
  | [], _, _, reads => by
    cases reads
    exact nofun
  | part :: parts, _, made, ⟨first, rest, reads, readsAll, same⟩ => by
    rw [Doc.AllMade] at made
    rw [same]
    exact List.forall_mem_append.2
      ⟨Doc.Made.of_reads part made.1 reads, Doc.AllMade.of_reads parts made.2 readsAll⟩

end

end Mintage.Layout

namespace Mintage.Solidity

open Layout

/-- Whatever has a document of its own. -/
inductive Node where
  | program (p : Program)
  | contract (c : Contract)
  | declaration (d : Declaration)
  | stmt (s : Stmt)
  | expr (e : Expr)

namespace Node

def doc : Node → Doc
  | program p => p.doc
  | contract c => c.doc
  | declaration d => d.doc
  | stmt s => s.doc
  | expr e => e.doc

def pieces : Node → List Piece
  | program p => p.pieces
  | contract c => c.pieces
  | declaration d => d.pieces
  | stmt s => s.pieces
  | expr e => e.pieces

theorem built (node : Node) {Q : String → Prop} (closed : Closed Q)
    (all : ∀ piece ∈ node.pieces, Q piece.2) : node.doc.Built Q := by
  cases node with
  | program p => exact closed.built_program all
  | contract c => exact closed.built_contract all
  | declaration d => exact closed.built_declaration all
  | stmt s => exact closed.built_stmt s all
  | expr e => exact closed.built_expr e all

/-- The only choices in the document of a node are the braces that it opens. -/
theorem made (node : Node) : node.doc.Made fun _ => True := by
  have closed : Closed fun _ => True := ⟨fun _ _ => trivial, fun _ => trivial, fun _ _ => trivial⟩
  exact (node.built closed fun _ _ => trivial).made

/-- At every width the page of a node consists of the texts of its document in their order, with
spaces and line feeds between them, and but for these it is the same at every width. The document
chooses nothing but where a brace opens. -/
theorem render_typeset (node : Node) (width : Nat) :
    (node.doc.Made fun _ => True) ∧
      (∃ ts, node.doc.Reads ts ∧ Typeset ts (node.doc.render width).toList) ∧
      (∀ ts, node.doc.Reads ts → solid (node.doc.render width).toList = solid (allChars ts)) ∧
      ∀ width', solid (node.doc.render width).toList = solid (node.doc.render width').toList := by
  have same (width : Nat) (ts : List String) (reads : node.doc.Reads ts) :
      solid (node.doc.render width).toList = solid (allChars ts) := by
    obtain ⟨ts', reads', typeset⟩ := node.doc.typeset_render width
    have each (ts : List String) (reads : node.doc.Reads ts) :
        solid (allChars ts) = node.doc.texts.flatMap fun t => solid t.toList := by
      rw [← node.made.flatMap_reads (by decide) _ reads, allChars, solid, List.filter_flatMap]
      rfl
    rw [typeset.solid_eq, each ts' reads', each ts reads]
  obtain ⟨ts, reads, typeset⟩ := node.doc.typeset_render width
  refine ⟨node.made, ⟨ts, reads, typeset⟩, same width, fun width' => ?_⟩
  rw [same width ts reads, same width' ts reads]

end Node

end Mintage.Solidity
