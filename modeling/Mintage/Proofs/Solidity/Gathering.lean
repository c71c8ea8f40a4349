import Mintage.Proofs.Solidity.Typesetting

/-! What is found in the texts of a document, where the separators between its parts hold none. -/
namespace Mintage.Layout.Doc

open Solidity

variable {α : Type} {f : String → List α}

/-- What a function finds in the texts of a document. -/
def gather (f : String → List α) (doc : Doc) : List α := doc.texts.flatMap f

@[simp] theorem gather_text (t : String) : (text t).gather f = f t := by
  rw [gather, texts, List.flatMap_singleton]

@[simp] theorem gather_line (kind : Line) : (line kind).gather f = [] := rfl

@[simp] theorem gather_indent (inner : Doc) : (indent inner).gather f = inner.gather f := rfl

@[simp] theorem gather_grouped (inner : Doc) : (grouped inner).gather f = inner.gather f := rfl

@[simp] theorem gather_concat (docs : List Doc) :
    (concat docs).gather f = docs.flatMap (gather f) := by
  rw [gather, texts, allTexts_eq_flatMap, List.flatMap_assoc]
  rfl

@[simp] theorem gather_openBrace : openBrace.gather f = f " \x7b" := gather_text _

theorem gather_join_eq_intercalate (separator : Doc) (docs : List Doc) :
    (join separator docs).gather f =
      (separator.gather f).intercalate (docs.map (gather f)) := by
  rw [join, gather_concat]
  induction docs with
  | nil => rfl
  | cons first docs ih =>
    cases docs with
    | nil => simp
    | cons second docs =>
      rw [List.intersperse_cons_cons, List.flatMap_cons, List.flatMap_cons, ih]
      simp

/-- Separators in which nothing is found may be left out. -/
theorem gather_join {separator : Doc} (empty : separator.gather f = []) (docs : List Doc) :
    (join separator docs).gather f = docs.flatMap (gather f) := by
  rw [join, gather_concat]
  induction docs with
  | nil => rfl
  | cons first docs ih =>
    cases docs with
    | nil => rfl
    | cons second docs =>
      rw [List.intersperse_cons_cons, List.flatMap_cons, List.flatMap_cons, ih, empty]
      rfl

theorem gather_blockTail {separator : Doc} (empty : separator.gather f = []) (items : List Doc) :
    (blockTail separator items).gather f = items.flatMap (gather f) ++ f "\x7d" := by
  unfold blockTail
  split
  · rename_i none
    rw [List.isEmpty_iff.1 none, gather_text]
    rfl
  · simp [hardLine, gather_join empty]

end Mintage.Layout.Doc

namespace Mintage.Solidity

open Layout

variable {α : Type} (f : String → List α)

namespace Program

/-- What stands in front of the contracts. -/
def preamble (p : Program) : List Doc :=
  (p.license.map fun license => .text ("// SPDX-License-Identifier: " ++ license)).toList ++
    (p.pragma.map fun version => .text ("pragma solidity " ++ version ++ ";")).toList ++
    p.imports.map fun path => .text ("import " ++ Text.quoted path ++ ";")

/-- A program without the line feed at its end. -/
def content (p : Program) : Doc :=
  .join .blankLine
    ((p.sections.filter (!·.2.isEmpty)).map fun part => .join part.1 part.2)

theorem gather_content (p : Program) :
    p.content.gather f =
      p.preamble.flatMap (Doc.gather f) ++ p.body.flatMap fun i => i.doc.gather f := by
  have between : ∀ part ∈ p.sections, part.1.gather f = [] := by
    simp only [sections, List.forall_mem_cons, List.not_mem_nil]
    exact ⟨rfl, rfl, rfl, by simp⟩
  have kept :
      (p.sections.filter (!·.2.isEmpty)).flatMap (fun part => part.2.flatMap (Doc.gather f)) =
        p.sections.flatMap fun part => part.2.flatMap (Doc.gather f) := by
    induction p.sections with
    | nil => rfl
    | cons part parts ih =>
      rw [List.filter_cons, List.flatMap_cons, ← ih]
      split
      · rfl
      · rename_i empty
        simp at empty
        simp [empty]
  have joined :
      p.content.gather f = p.sections.flatMap fun part => part.2.flatMap (Doc.gather f) := by
    rw [content, Doc.gather_join rfl, List.flatMap_map, ← kept]
    refine List.flatMap_congr fun part mem => ?_
    exact Doc.gather_join (between part (List.mem_filter.1 mem).1) part.2
  rw [joined]
  simp [sections, preamble, List.flatMap_map]

/-- Whatever is looked for in a program is found in its preamble or in one of its contracts and
comments. -/
theorem gather_doc (p : Program) :
    p.doc.gather f =
      p.preamble.flatMap (Doc.gather f) ++ p.body.flatMap fun i => i.doc.gather f := by
  have split : p.doc = .concat [p.content, .hardLine] := rfl
  rw [split, Doc.gather_concat]
  simp [Doc.hardLine, gather_content]

end Program

end Mintage.Solidity
