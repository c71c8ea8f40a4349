import Mathlib.Data.List.DropRight
import Mintage.Layout.Render

/-! The strokes that write a document, and the text that they leave on the page. -/
namespace Mintage.Layout

/-- One movement of the pen. -/
inductive Stroke where
  | text (s : String)
  | space
  | newLine (indent : Nat)

namespace Stroke

def chars : Stroke → List Char
  | text s => s.toList
  | space => [' ']
  | newLine indent => '\n' :: List.replicate indent ' '

def isNewLine : Stroke → Bool
  | newLine _ => true
  | _ => false

end Stroke

def isSpace (c : Char) : Bool := c == ' '

/-- The text without the spaces at its end. -/
def unpadded (cs : List Char) : List Char := cs.rdropWhile isSpace

theorem unpadded_append (cs ds : List Char) :
    unpadded (cs ++ ds) = if ds.all isSpace then unpadded cs else cs ++ unpadded ds := by
  have empty : (ds.reverse.dropWhile isSpace).isEmpty = ds.all isSpace := by
    rw [Bool.eq_iff_iff, List.isEmpty_iff, List.dropWhile_eq_nil_iff, List.all_eq_true]
    simp
  unfold unpadded List.rdropWhile
  rw [List.reverse_append, List.dropWhile_append, empty]
  split <;> simp

theorem unpadded_eq_nil {cs : List Char} (spaces : cs.all isSpace = true) : unpadded cs = [] := by
  simpa [spaces, unpadded] using unpadded_append [] cs

/-- What is cut off are spaces. -/
theorem exists_eq_unpadded_append (cs : List Char) :
    ∃ n, cs = unpadded cs ++ List.replicate n ' ' := by
  refine ⟨(cs.reverse.takeWhile isSpace).length, ?_⟩
  have spaces : cs.reverse.takeWhile isSpace =
      List.replicate (cs.reverse.takeWhile isSpace).length ' ' := by
    refine List.eq_replicate_iff.2 ⟨rfl, fun c mem => ?_⟩
    exact beq_iff_eq.1 (List.mem_takeWhile_imp (p := isSpace) mem)
  have split := congrArg List.reverse (List.takeWhile_append_dropWhile (p := isSpace)
    (l := cs.reverse))
  rw [List.reverse_append, List.reverse_reverse, spaces, List.reverse_replicate] at split
  exact split.symm

/-- A text that does not end in a space has no spaces at its end to lose. -/
theorem eq_of_append_spaces {cs kept : List Char} {n : Nat}
    (cut : cs = kept ++ List.replicate n ' ') (ends : cs.getLast? ≠ some ' ') : cs = kept := by
  cases n with
  | zero => simpa using cut
  | succ n =>
    rw [cut] at ends
    simp [List.replicate_succ'] at ends

namespace Sheet

def chars (sheet : Sheet) : List Char := sheet.reversed.reverse

def draw (sheet : Sheet) : Stroke → Sheet
  | .text s => sheet.write s
  | .space => sheet.write " "
  | .newLine indent => sheet.breakLine indent

/-- Only a line end changes what is already written, by the spaces at its end. -/
theorem chars_draw (sheet : Sheet) (stroke : Stroke) :
    (sheet.draw stroke).chars =
      (if stroke.isNewLine then unpadded sheet.chars else sheet.chars) ++ stroke.chars := by
  cases stroke with
  | text s => simp [draw, write, chars, Stroke.chars, Stroke.isNewLine]
  | space => simp [draw, write, chars, Stroke.chars, Stroke.isNewLine]
  | newLine indent =>
    simp only [draw, breakLine, chars, Stroke.chars, Stroke.isNewLine, unpadded, List.rdropWhile,
      List.reverse_reverse, List.reverse_append, List.reverse_cons, List.reverse_replicate,
      List.append_assoc, List.singleton_append, if_true]
    rfl

end Sheet

/-- Whether only spaces are still written on the line. -/
def endsLine : List Stroke → Bool
  | [] => false
  | stroke :: ss => stroke.isNewLine || stroke.chars.all isSpace && endsLine ss

/-- What strokes write: spaces at the end of a line are left out. -/
def spell : List Stroke → List Char
  | [] => []
  | stroke :: ss => (if endsLine ss then unpadded stroke.chars else stroke.chars) ++ spell ss

/-- A sheet is what the strokes spell behind what it held before. -/
theorem chars_foldl_draw (ss : List Stroke) (sheet : Sheet) :
    (ss.foldl Sheet.draw sheet).chars =
      (if endsLine ss then unpadded sheet.chars else sheet.chars) ++ spell ss := by
  induction ss generalizing sheet with
  | nil => simp [endsLine, spell]
  | cons stroke ss ih =>
    rw [List.foldl_cons, ih, Sheet.chars_draw, spell, endsLine, ← List.append_assoc]
    congr 1
    cases ends : endsLine ss with
    | false => simp
    | true =>
      rw [if_pos rfl, if_pos rfl, unpadded_append, Bool.and_true]
      cases spaces : stroke.chars.all isSpace with
      | false => simp
      | true =>
        have noLine : stroke.isNewLine = false := by
          cases stroke with
          | newLine indent => simp [Stroke.chars, isSpace] at spaces
          | _ => rfl
        simp [noLine, unpadded_eq_nil spaces]

/-- A line that ends is followed by its line feed. -/
theorem exists_spell_of_endsLine {ss : List Stroke} (ends : endsLine ss = true) :
    ∃ cs, spell ss = '\n' :: cs := by
  induction ss with
  | nil => cases ends
  | cons stroke ss ih =>
    rw [endsLine, Bool.or_eq_true, Bool.and_eq_true] at ends
    rw [spell]
    rcases ends with newLine | ⟨spaces, ends⟩
    · cases stroke with
      | newLine indent =>
        have feed : unpadded (Stroke.newLine indent).chars = ['\n'] := by
          have spaces : (List.replicate indent ' ').all isSpace = true := by simp [isSpace]
          have cut := unpadded_append ['\n'] (List.replicate indent ' ')
          rw [if_pos spaces] at cut
          exact cut
        rw [feed]
        split <;> exact ⟨_, rfl⟩
      | _ => cases newLine
    · rw [if_pos ends, unpadded_eq_nil spaces]
      exact ih ends

/-- How a line is written that is not broken. -/
def Line.unbroken? : Line → Option (List Stroke)
  | .soft => some []
  | .space => some [.space]
  | .hard => none

mutual

/-- The strokes that may write a document: every line that can stay unbroken may do so or not. -/
def Doc.Draws (indent : Nat) : Doc → List Stroke → Prop
  | .nil, ss => ss = []
  | .text s, ss => ss = [.text s]
  | .line kind, ss => ss = [.newLine indent] ∨ kind.unbroken? = some ss
  | .concat parts, ss => Doc.DrawsAll indent parts ss
  | .indent inner, ss => inner.Draws (indent + indentWidth) ss
  | .group _ inner, ss => inner.Draws indent ss
  | .ifBreak broken flat, ss => broken.Draws indent ss ∨ flat.Draws indent ss

def Doc.DrawsAll (indent : Nat) : List Doc → List Stroke → Prop
  | [], ss => ss = []
  | part :: parts, ss =>
    ∃ first rest, part.Draws indent first ∧ Doc.DrawsAll indent parts rest ∧ ss = first ++ rest

end

theorem draws_hardLine {indent : Nat} {ss : List Stroke} (drawn : Doc.hardLine.Draws indent ss) :
    ss = [.newLine indent] := by
  rcases drawn with rfl | unbroken
  · rfl
  · cases unbroken

theorem draws_blankLine {indent : Nat} {ss : List Stroke} (drawn : Doc.blankLine.Draws indent ss) :
    ss = [.newLine indent, .newLine indent] := by
  obtain ⟨first, _, one, ⟨second, _, other, rfl, rfl⟩, rfl⟩ := drawn
  rw [draws_hardLine one, draws_hardLine other]
  rfl

theorem Doc.drawsAll_append {indent : Nat} {docs more : List Doc} {ss : List Stroke}
    (drawn : Doc.DrawsAll indent (docs ++ more) ss) :
    ∃ front back, Doc.DrawsAll indent docs front ∧ Doc.DrawsAll indent more back ∧
      ss = front ++ back := by
  induction docs generalizing ss with
  | nil => exact ⟨[], ss, rfl, drawn, rfl⟩
  | cons doc docs ih =>
    obtain ⟨first, rest, here, later, rfl⟩ := drawn
    obtain ⟨front, back, drawn, behind, rfl⟩ := ih later
    exact ⟨first ++ front, back, ⟨first, front, here, drawn, rfl⟩, behind,
      (List.append_assoc ..).symm⟩

theorem exists_draws_line (sheet : Sheet) (indent : Nat) (mode : Mode) (kind : Line) :
    ∃ ss, (Doc.line kind).Draws indent ss ∧
      sheet.writeLine indent mode kind = ss.foldl Sheet.draw sheet := by
  cases mode with
  | broken => exact ⟨_, .inl rfl, rfl⟩
  | flat =>
    cases kind with
    | hard => exact ⟨_, .inl rfl, rfl⟩
    | _ => exact ⟨_, .inr rfl, rfl⟩

mutual

/-- Whatever fits, a document is written by strokes of its own. -/
theorem exists_draws (width : Nat) (rest : List Frame) (indent : Nat) (mode : Mode) :
    ∀ (doc : Doc) (sheet : Sheet), ∃ ss, doc.Draws indent ss ∧
      put width rest indent mode doc sheet = ss.foldl Sheet.draw sheet
  | .nil, sheet => ⟨[], rfl, rfl⟩
  | .text s, sheet => ⟨[.text s], rfl, rfl⟩
  | .line kind, sheet => exists_draws_line sheet indent mode kind
  | .concat parts, sheet => exists_drawsAll width rest indent mode parts sheet
  | .indent inner, sheet => exists_draws width rest (indent + indentWidth) mode inner sheet
  | .group broken inner, sheet =>
    exists_draws width rest indent (groupMode width rest broken inner sheet) inner sheet
  | .ifBreak broken flat, sheet => by
    cases mode with
    | broken =>
      obtain ⟨ss, drawn, same⟩ := exists_draws width rest indent .broken broken sheet
      exact ⟨ss, .inl drawn, same⟩
    | flat =>
      obtain ⟨ss, drawn, same⟩ := exists_draws width rest indent .flat flat sheet
      exact ⟨ss, .inr drawn, same⟩

theorem exists_drawsAll (width : Nat) (rest : List Frame) (indent : Nat) (mode : Mode) :
    ∀ (parts : List Doc) (sheet : Sheet), ∃ ss, Doc.DrawsAll indent parts ss ∧
      putAll width rest indent mode parts sheet = ss.foldl Sheet.draw sheet
  | [], sheet => ⟨[], rfl, rfl⟩
  | part :: parts, sheet => by
    obtain ⟨first, drawn, same⟩ :=
      exists_draws width (⟨mode, parts⟩ :: rest) indent mode part sheet
    obtain ⟨later, drawnAll, sameAll⟩ :=
      exists_drawsAll width rest indent mode parts (first.foldl Sheet.draw sheet)
    refine ⟨first ++ later, ⟨first, later, drawn, drawnAll, rfl⟩, ?_⟩
    rw [putAll, same, sameAll, List.foldl_append]

end

/-- A rendered document is what some of its strokes write. -/
theorem Doc.exists_render (doc : Doc) (width : Nat) :
    ∃ ss, doc.Draws 0 ss ∧ (doc.render width).toList = spell ss := by
  obtain ⟨ss, drawn, same⟩ := exists_draws width [] 0 .broken doc .blank
  refine ⟨ss, drawn, ?_⟩
  have written := chars_foldl_draw ss .blank
  rw [← same] at written
  have nothing : unpadded Sheet.blank.chars = [] := rfl
  rw [nothing] at written
  simpa [render, Sheet.text, Sheet.chars, Sheet.blank] using written

end Mintage.Layout
