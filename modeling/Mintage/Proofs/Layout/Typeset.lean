import Mintage.Proofs.Layout.Stroke

/-! A page holds the texts of its document in their order. The layout decides only on the spaces and
line feeds between them. -/
namespace Mintage.Layout

def isGap (c : Char) : Bool := c == ' ' || c == '\n'

/-- The page consists of the texts one after the other, with gaps between them. A text is there
character by character; only in front of a line feed it may lack spaces at its end. -/
inductive Typeset : List String → List Char → Prop where
  | nil : Typeset [] []
  | gap {ts : List String} {cs : List Char} (c : Char) (blank : isGap c = true)
    (rest : Typeset ts cs) : Typeset ts (c :: cs)
  | whole {ts : List String} {cs : List Char} (t : String) (rest : Typeset ts cs) :
    Typeset (t :: ts) (t.toList ++ cs)
  | trimmed {ts : List String} {kept cs : List Char} (t : String) (n : Nat)
    (cut : t.toList = kept ++ List.replicate n ' ') (rest : Typeset ts ('\n' :: cs)) :
    Typeset (t :: ts) (kept ++ '\n' :: cs)

/-- The text without spaces and line feeds. -/
def solid (cs : List Char) : List Char := cs.filter (!isGap ·)

@[simp] theorem solid_append (cs ds : List Char) : solid (cs ++ ds) = solid cs ++ solid ds :=
  List.filter_append ..

theorem solid_eq_nil {cs : List Char} (gaps : cs.all isGap = true) : solid cs = [] := by
  rw [List.all_eq_true] at gaps
  exact List.filter_eq_nil_iff.2 fun c mem => by simp [gaps c mem]

/-- All characters of the texts. -/
def allChars (ts : List String) : List Char := ts.flatMap String.toList

namespace Typeset

variable {ts : List String} {cs : List Char}

theorem gaps (blanks : List Char) (all : blanks.all isGap = true) (rest : Typeset ts cs) :
    Typeset ts (blanks ++ cs) := by
  induction blanks with
  | nil => exact rest
  | cons c blanks ih =>
    rw [List.all_cons, Bool.and_eq_true] at all
    exact .gap c all.1 (ih all.2)

/-- Without gaps, the page is the texts one after the other. -/
theorem solid_eq (typeset : Typeset ts cs) : solid cs = solid (allChars ts) := by
  induction typeset with
  | nil => rfl
  | @gap ts cs c blank rest ih =>
    rw [← ih]
    simp [solid, blank]
  | whole t rest ih => simp [allChars, ih]
  | trimmed t n cut rest ih =>
    have spaces : solid (List.replicate n ' ') = [] := solid_eq_nil (by simp [isGap])
    simp [allChars, ih, cut, spaces]

/-- A text that does not end in a space stands on the page character by character. -/
theorem isInfix (typeset : Typeset ts cs) {t : String} (mem : t ∈ ts)
    (ends : t.toList.getLast? ≠ some ' ') : t.toList <:+: cs := by
  induction typeset with
  | nil => cases mem
  | gap c blank rest ih => exact (ih mem).trans (List.suffix_cons ..).isInfix
  | whole u rest ih =>
    rcases List.mem_cons.1 mem with rfl | mem
    · exact (List.prefix_append ..).isInfix
    · exact (ih mem).trans (List.suffix_append ..).isInfix
  | @trimmed ts kept cs u n cut rest ih =>
    rcases List.mem_cons.1 mem with rfl | mem
    · rw [eq_of_append_spaces cut ends]
      exact (List.prefix_append ..).isInfix
    · exact (ih mem).trans (List.suffix_append ..).isInfix

end Typeset

def Stroke.text? : Stroke → Option String
  | text s => some s
  | _ => none

/-- Strokes write their texts, and only blanks besides. -/
theorem typeset_spell (ss : List Stroke) : Typeset (ss.filterMap Stroke.text?) (spell ss) := by
  induction ss with
  | nil => exact .nil
  | cons stroke ss ih =>
    have blank (gaps : stroke.chars.all isGap = true) :
        Typeset (ss.filterMap Stroke.text?) (spell (stroke :: ss)) := by
      refine Typeset.gaps _ ?_ ih
      split
      · obtain ⟨n, split⟩ := exists_eq_unpadded_append stroke.chars
        rw [split, List.all_append, Bool.and_eq_true] at gaps
        exact gaps.1
      · exact gaps
    cases stroke with
    | text s =>
      have own : (Stroke.text s).text? = some s := rfl
      rw [List.filterMap_cons_some own, spell]
      cases ends : endsLine ss with
      | false => exact .whole s ih
      | true =>
        obtain ⟨cs, feed⟩ := exists_spell_of_endsLine ends
        obtain ⟨n, split⟩ := exists_eq_unpadded_append s.toList
        rw [feed] at ih ⊢
        exact .trimmed s n split ih
    | space => exact blank rfl
    | newLine indent => exact blank (by simp [Stroke.chars, isGap])

mutual

/-- The texts of a document in their order, with either branch of every choice. -/
def Doc.Reads : Doc → List String → Prop
  | .nil, ts => ts = []
  | .text s, ts => ts = [s]
  | .line _, ts => ts = []
  | .concat parts, ts => Doc.ReadsAll parts ts
  | .indent inner, ts => inner.Reads ts
  | .group _ inner, ts => inner.Reads ts
  | .ifBreak broken flat, ts => broken.Reads ts ∨ flat.Reads ts

def Doc.ReadsAll : List Doc → List String → Prop
  | [], ts => ts = []
  | part :: parts, ts =>
    ∃ first rest, part.Reads first ∧ Doc.ReadsAll parts rest ∧ ts = first ++ rest

end

mutual

theorem Doc.Draws.reads : ∀ (doc : Doc) {indent : Nat} {ss : List Stroke}, doc.Draws indent ss →
    doc.Reads (ss.filterMap Stroke.text?)
  | .nil, _, _, drawn => by
    cases drawn
    rfl
  | .text s, _, _, drawn => by
    cases drawn
    rfl
  | .line kind, _, ss, drawn => by
    rcases drawn with rfl | unbroken
    · rfl
    · cases kind <;> cases unbroken <;> rfl
  | .concat parts, _, _, drawn => Doc.readsAll_of_drawsAll parts drawn
  | .indent inner, _, _, drawn => Doc.Draws.reads inner drawn
  | .group _ inner, _, _, drawn => Doc.Draws.reads inner drawn
  | .ifBreak broken flat, _, _, drawn =>
    drawn.imp (Doc.Draws.reads broken) (Doc.Draws.reads flat)

theorem Doc.readsAll_of_drawsAll : ∀ (parts : List Doc) {indent : Nat} {ss : List Stroke},
    Doc.DrawsAll indent parts ss → Doc.ReadsAll parts (ss.filterMap Stroke.text?)
  | [], _, _, drawn => by
    cases drawn
    rfl
  | part :: parts, _, _, ⟨first, rest, drawn, drawnAll, same⟩ => by
    refine ⟨_, _, Doc.Draws.reads part drawn, Doc.readsAll_of_drawsAll parts drawnAll, ?_⟩
    rw [same, List.filterMap_append]

end

/-- A rendered document is a page of its texts. -/
theorem Doc.typeset_render (doc : Doc) (width : Nat) :
    ∃ ts, doc.Reads ts ∧ Typeset ts (doc.render width).toList := by
  obtain ⟨ss, drawn, written⟩ := doc.exists_render width
  exact ⟨_, drawn.reads doc, written ▸ typeset_spell ss⟩

end Mintage.Layout
