import Mintage.Proofs.Layout.Visit
import Mintage.Proofs.Solidity.Typesetting

/-! The documents of programs are regular: their groups are marked as they should be, and their
texts hold no line feeds. What the printer lays out on one line stays on one line. -/
namespace Mintage.Layout

mutual

theorem Doc.Built.regular : ∀ doc : Doc, (doc.Built fun s => '\n' ∉ s.toList) → doc.Regular
  | .nil, _ => trivial
  | .text _, built => built
  | .line _, _ => trivial
  | .concat parts, built => Doc.AllBuilt.regular parts built
  | .indent inner, built => Doc.Built.regular inner built
  | .group _ inner, built => ⟨built.1, Doc.Built.regular inner built.2⟩
  | .ifBreak broken flat, built =>
    ⟨Doc.Built.regular broken built.2.1, Doc.Built.regular flat built.2.2⟩

theorem Doc.AllBuilt.regular : ∀ parts : List Doc,
    Doc.AllBuilt (fun s => '\n' ∉ s.toList) parts → Doc.AllRegular parts
  | [], _ => trivial
  | part :: parts, built =>
    ⟨Doc.Built.regular part built.1, Doc.AllBuilt.regular parts built.2⟩

end

end Mintage.Layout

namespace Mintage.Solidity

open Layout

/-- A line feed in a value is escaped in its literal. -/
theorem notMem_quoted (s : String) : '\n' ∉ (Text.quoted s).toList := by
  have noFeed (c : Char) : '\n' ∉ Text.Quoted.escape c := by
    unfold Text.Quoted.escape
    split <;> simp_all [eq_comm]
  simp [Text.quoted, Text.Quoted.encode, noFeed]

theorem closed_notMem : Closed fun s => '\n' ∉ s.toList where
  plain _ plain := plain.2
  quoted := notMem_quoted
  append := by simp +contextual

/-- Whatever is printed is laid out by the rules if its pieces stay in one line. -/
theorem Node.regular (node : Node) (inLine : ∀ piece ∈ node.pieces, '\n' ∉ piece.2.toList) :
    node.doc.Regular :=
  (node.built closed_notMem inLine).regular

end Mintage.Solidity

namespace Mintage.Layout

/-- Regular documents, such as those of nodes whose pieces hold no line feeds, are written as
follows. What is written in front of a group that is laid out on one line, the text of the group and
what is still to be written make up the page. All groups inside lie on this line, too, and the whole
line up to the next line feed is not longer than the page is wide. -/
theorem Doc.flat_fits :
    (∀ node : Solidity.Node, (∀ piece ∈ node.pieces, '\n' ∉ piece.2.toList) → node.doc.Regular) ∧
    ∀ doc : Doc, doc.Regular → ∀ width, ∀ v ∈ doc.allVisits width, v.mode width = .flat →
      (∀ w ∈ v.inside width, w.mode width = .flat) ∧
      '\n' ∉ v.inner.flatText.toList ∧
      v.after width = v.sheet.write v.inner.flatText ∧
      doc.render width = (finish width v.behind (v.after width)).text ∧
      ∃ before start rest, v.sheet.Lines before start ∧ '\n' ∉ rest ∧
        (start ++ v.inner.flatText.toList ++ rest).length ≤ width ∧
        HasLine (doc.render width).toList before (start ++ v.inner.flatText.toList ++ rest) := by
  refine ⟨Solidity.Node.regular, fun doc regular width v met flat => ?_⟩
  have proper := Doc.proper_allVisits regular width v met
  obtain ⟨notBroken, fits, room⟩ := Visit.mode_eq_flat flat
  have soft : v.inner.hasHardLine = false := by rw [← proper.mark, notBroken]
  have lies := liesFlat_put width v.behind v.indent v.inner proper.regular soft fits room
  rw [measure_flat v.inner proper.regular soft] at room
  obtain ⟨short, later⟩ := Room.take_andThen.1 room
  have after : v.after width = v.sheet.write v.inner.flatText := by
    rw [Visit.after, flat, lies.sheet]
  have column : (v.after width).column = v.sheet.column + v.inner.flatText.length := by
    rw [after]
    rfl
  have inLine := notMem_flatText v.inner proper.regular
  obtain ⟨before, start, lines⟩ := proper.lined
  have grows : Grows width [] (v.after width) (finish width v.behind (v.after width)) := by
    refine grows_finish width v.behind proper.later (by omega) ?_
    rw [column, ← Nat.sub_sub]
    exact later
  rw [proper.page] at grows
  obtain ⟨rest, restInLine, length, has⟩ := grows.exists_line (after ▸ lines.write inLine)
  refine ⟨by rw [Visit.inside, flat]; exact lies.groups, inLine, after, ?_, before, start, rest,
    lines, restInLine, length, ?_⟩
  · rw [proper.page, Doc.render]
  · rw [Doc.render, Sheet.text, String.toList_ofList]
    exact has

/-- `f(g(h(1), x), y)`, where the call of `g` has room on a line of its own. -/
def sampleNested : Solidity.Expr :=
  .apply "f" [.apply "g" [.apply "h" [.number "1"], .ident "x"], .ident "y"]

theorem Doc.flat_fits_sampleNested :
    sampleNested.doc.render 13 = "f(\n  g(h(1), x),\n  y\n)" ∧
    ∃ v ∈ sampleNested.doc.allVisits 13, v.mode 13 = .flat ∧ (v.inside 13).length = 1 ∧
      v.inner.flatText = "(h(1), x)" ∧
      (∀ w ∈ v.inside 13, w.mode 13 = .flat) ∧
      v.after 13 = v.sheet.write v.inner.flatText ∧
      ∃ before start rest, v.sheet.Lines before start ∧ '\n' ∉ rest ∧
        (start ++ v.inner.flatText.toList ++ rest).length ≤ 13 ∧
        HasLine (sampleNested.doc.render 13).toList before
          (start ++ v.inner.flatText.toList ++ rest) := by
  have inLine : ∀ piece ∈ (Solidity.Node.expr sampleNested).pieces, '\n' ∉ piece.2.toList := by
    decide
  have met : (sampleNested.doc.allVisits 13)[1] ∈ sampleNested.doc.allVisits 13 :=
    List.getElem_mem (by decide)
  obtain ⟨groups, -, after, -, line⟩ :=
    Doc.flat_fits.2 sampleNested.doc (Doc.flat_fits.1 _ inLine) 13 _ met (by decide)
  exact ⟨by decide, _, met, by decide, by decide, by decide, groups, after, line⟩

end Mintage.Layout
