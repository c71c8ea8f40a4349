import Mathlib.Data.List.Chain
import Mintage.Proofs.Layout.Stroke
import Mintage.Proofs.Text.Blank

/-! The lines of a file: where blank lines may stand in it, and the lines that strokes write. -/
namespace Mintage.Layout

open Text

/-- The characters of a line that are no blanks. -/
def marks (cs : List Char) : List Char := cs.filter (!isBlank ·)

@[simp] theorem marks_append (cs ds : List Char) : marks (cs ++ ds) = marks cs ++ marks ds :=
  List.filter_append ..

@[simp] theorem marks_replicate_space (n : Nat) : marks (List.replicate n ' ') = [] := by
  refine List.filter_eq_nil_iff.2 fun c mem => ?_
  rw [List.eq_of_mem_replicate mem]
  decide

@[simp] theorem marks_unpadded (cs : List Char) : marks (unpadded cs) = marks cs := by
  obtain ⟨n, split⟩ := exists_eq_unpadded_append cs
  conv_rhs => rw [split]
  simp

theorem getLast?_unpadded (cs : List Char) : (unpadded cs).getLast? ≠ some ' ' := by
  intro ends
  have filled : unpadded cs ≠ [] := fun none => by simp [none] at ends
  have last := List.rdropWhile_last_not isSpace cs filled
  rw [List.getLast?_eq_some_getLast filled, Option.some_inj] at ends
  exact last (beq_iff_eq.2 ends)

theorem unpadded_of_getLast? {cs : List Char} (ends : cs.getLast? ≠ some ' ') :
    unpadded cs = cs := by
  obtain ⟨n, split⟩ := exists_eq_unpadded_append cs
  exact (eq_of_append_spaces split ends).symm

theorem notMem_unpadded {cs : List Char} {c : Char} (notMem : c ∉ cs) : c ∉ unpadded cs :=
  fun mem => notMem ((List.rdropWhile_prefix isSpace cs).subset mem)

/-- A blank line stands neither behind another one, nor behind a line that ends in an opening brace,
nor in front of a closing brace. -/
structure Follows (above below : List Char) : Prop where
  single : marks above = [] → marks below ≠ []
  opening : (marks above).getLast? = some '{' → marks below ≠ []
  closing : marks above = [] → (marks below).head? ≠ some '}'

/-- The lines of a file, without what stands behind the last line feed. -/
def fileLines (cs : List Char) : List (List Char) := (pieces (· == '\n') cs).dropLast

/-- The file ends with one line feed, no line ends in a space, the first and the last line are not
blank, and blank lines stand where they may. -/
structure Formatted (cs : List Char) : Prop where
  ended : cs.getLast? = some '\n'
  unpadded : ∀ line ∈ fileLines cs, line.getLast? ≠ some ' '
  starts : ∃ line ∈ (fileLines cs).head?, marks line ≠ []
  ends : ∃ line ∈ (fileLines cs).getLast?, marks line ≠ []
  spaced : (fileLines cs).IsChain Follows

theorem follows_iff {above below : List Char} : Follows above below ↔
    (marks above = [] → marks below ≠ []) ∧
      ((marks above).getLast? = some '{' → marks below ≠ []) ∧
      (marks above = [] → (marks below).head? ≠ some '}') :=
  ⟨fun ⟨single, opening, closing⟩ => ⟨single, opening, closing⟩,
    fun ⟨single, opening, closing⟩ => ⟨single, opening, closing⟩⟩

instance (above below : List Char) : Decidable (Follows above below) :=
  decidable_of_iff _ follows_iff.symm

theorem formatted_iff {cs : List Char} : Formatted cs ↔
    cs.getLast? = some '\n' ∧
      (∀ line ∈ fileLines cs, line.getLast? ≠ some ' ') ∧
      (∃ line ∈ (fileLines cs).head?, marks line ≠ []) ∧
      (∃ line ∈ (fileLines cs).getLast?, marks line ≠ []) ∧
      (fileLines cs).IsChain Follows :=
  ⟨fun ⟨ended, unpadded, starts, ends, spaced⟩ => ⟨ended, unpadded, starts, ends, spaced⟩,
    fun ⟨ended, unpadded, starts, ends, spaced⟩ => ⟨ended, unpadded, starts, ends, spaced⟩⟩

instance (cs : List Char) : Decidable (Formatted cs) := decidable_of_iff _ formatted_iff.symm

example : Formatted "a \x7b\n  b;\n\n  c;\n\x7d\n".toList := by decide

example : ¬ Formatted "a \x7b\n  b;\n\n\x7d\n".toList := by decide

theorem fileLines_flatMap_eq_flatMap (lines : List (List Char)) :
    fileLines (lines.flatMap (· ++ ['\n'])) = lines.flatMap (pieces (· == '\n')) := by
  have all : pieces (· == '\n') (lines.flatMap (· ++ ['\n'])) =
      lines.flatMap (pieces (· == '\n')) ++ [[]] := by
    induction lines with
    | nil => rfl
    | cons line lines ih =>
      rw [List.flatMap_cons, List.append_assoc, List.singleton_append, pieces_append_cons rfl, ih,
        List.flatMap_cons, List.append_assoc]
  rw [fileLines, all, List.dropLast_concat]

/-- A text without line feeds is one line. -/
theorem pieces_line {line : List Char} (inLine : '\n' ∉ line) : pieces (· == '\n') line = [line] :=
  pieces_eq_singleton fun _ mem => beq_false_of_ne fun feed => inLine (feed ▸ mem)

theorem flatMap_pieces_lines {lines : List (List Char)} (inLine : ∀ line ∈ lines, '\n' ∉ line) :
    lines.flatMap (pieces (· == '\n')) = lines := by
  have whole := List.flatMap_congr fun line mem => pieces_line (inLine line mem)
  rw [whole, List.flatMap_singleton']

/-- The lines of a file are found again if none of them holds a line feed. -/
theorem fileLines_flatMap {lines : List (List Char)} (inLine : ∀ line ∈ lines, '\n' ∉ line) :
    fileLines (lines.flatMap (· ++ ['\n'])) = lines := by
  rw [fileLines_flatMap_eq_flatMap, flatMap_pieces_lines inLine]

/-- The lines that strokes write behind the start of a line. -/
def strokeLines : List Char → List Stroke → List (List Char)
  | line, [] => [unpadded line]
  | line, .newLine indent :: ss => unpadded line :: strokeLines (List.replicate indent ' ') ss
  | line, stroke :: ss => strokeLines (line ++ stroke.chars) ss

/-- A line end cuts the strokes in two, and the lines of either half stay as they are. -/
theorem strokeLines_append_newLine (line : List Char) (ss : List Stroke) (indent : Nat)
    (more : List Stroke) :
    strokeLines line (ss ++ .newLine indent :: more) =
      strokeLines line ss ++ strokeLines (List.replicate indent ' ') more := by
  induction ss generalizing line with
  | nil => rfl
  | cons stroke ss ih =>
    cases stroke with
    | newLine indent' => exact congrArg (unpadded line :: ·) (ih _)
    | _ => exact ih _

theorem getLast?_of_mem_strokeLines {line l : List Char} {ss : List Stroke}
    (mem : l ∈ strokeLines line ss) : l.getLast? ≠ some ' ' := by
  induction ss generalizing line with
  | nil =>
    rw [List.mem_singleton.1 mem]
    exact getLast?_unpadded line
  | cons stroke ss ih =>
    cases stroke with
    | newLine indent =>
      rcases List.mem_cons.1 mem with rfl | mem
      · exact getLast?_unpadded line
      · exact ih mem
    | _ => exact ih mem

/-- A line, and what strokes write behind it. -/
def continued (line : List Char) (ss : List Stroke) : List Char :=
  (if endsLine ss then unpadded line else line) ++ spell ss

theorem continued_eq_draw (line : List Char) (ss : List Stroke) :
    continued line ss = (ss.foldl Sheet.draw ⟨line.reverse, 0⟩).chars := by
  rw [chars_foldl_draw, Sheet.chars, List.reverse_reverse, continued]

/-- A stroke goes to the line in front of it; a line end first takes the spaces away there. -/
theorem continued_cons (line : List Char) (stroke : Stroke) (ss : List Stroke) :
    continued line (stroke :: ss) =
      continued ((if stroke.isNewLine then unpadded line else line) ++ stroke.chars) ss := by
  have drawn := Sheet.chars_draw ⟨line.reverse, 0⟩ stroke
  have kept : (⟨line.reverse, 0⟩ : Sheet).chars = line := List.reverse_reverse line
  rw [continued_eq_draw, List.foldl_cons, chars_foldl_draw, drawn, kept, continued]

theorem unpadded_cons_feed (cs : List Char) : unpadded ('\n' :: cs) = '\n' :: unpadded cs := by
  have split := unpadded_append ['\n'] cs
  rw [List.singleton_append] at split
  rw [split]
  cases spaces : cs.all isSpace with
  | false => rfl
  | true => exact congrArg _ (unpadded_eq_nil spaces).symm

/-- A line that has ended stays as it is. -/
theorem continued_append_feed (line rest : List Char) (ss : List Stroke) :
    continued (line ++ '\n' :: rest) ss = line ++ '\n' :: continued rest ss := by
  have cut : unpadded (line ++ '\n' :: rest) = line ++ '\n' :: unpadded rest := by
    rw [unpadded_append, if_neg (by simp [isSpace]), unpadded_cons_feed]
  rw [continued, cut, continued]
  split <;> simp

/-- What strokes write up to a line end are their lines, each with its line feed. -/
theorem continued_eq_flatMap (line : List Char) (ss : List Stroke) :
    continued line (ss ++ [Stroke.newLine 0]) = (strokeLines line ss).flatMap (· ++ ['\n']) := by
  induction ss generalizing line with
  | nil => simp [strokeLines, continued, endsLine, spell, Stroke.isNewLine, Stroke.chars]
  | cons stroke ss ih =>
    rw [List.cons_append, continued_cons]
    cases stroke with
    | newLine indent =>
      rw [Stroke.chars, continued_append_feed, ih, strokeLines, List.flatMap_cons,
        List.append_assoc]
      rfl
    | _ => exact ih _

/-- Texts with hard lines between them are written one below the other. -/
theorem strokeLines_of_draws {ts : List String} (some : ts ≠ []) {ss : List Stroke}
    (drawn : (Doc.join Doc.hardLine (ts.map Doc.text)).Draws 0 ss) :
    strokeLines [] ss = ts.map fun t => unpadded t.toList := by
  match ts with
  | [] => exact absurd rfl some
  | [t] =>
    obtain ⟨_, _, rfl, rfl, rfl⟩ := drawn
    rfl
  | t :: u :: ts =>
    obtain ⟨_, _, rfl, ⟨feed, rest, line, drawn, rfl⟩, rfl⟩ := drawn
    rw [draws_hardLine line]
    have later := strokeLines_of_draws (List.cons_ne_nil u ts) drawn
    exact (strokeLines_append_newLine [] [.text t] 0 rest).trans (congrArg _ later)

/-- An item stands between separators, or at an end. -/
theorem exists_intersperse {α : Type} (separator : α) {items : List α} {item : α}
    (mem : item ∈ items) : ∃ front back, items.intersperse separator = front ++ item :: back ∧
      (front = [] ∨ ∃ before, front = before ++ [separator]) ∧
      (back = [] ∨ ∃ behind, back = separator :: behind) := by
  match items with
  | [first] =>
    cases List.mem_singleton.1 mem
    exact ⟨[], [], rfl, .inl rfl, .inl rfl⟩
  | first :: second :: items =>
    rw [List.intersperse_cons_cons]
    rcases List.mem_cons.1 mem with rfl | mem
    · exact ⟨[], _, rfl, .inl rfl, .inr ⟨_, rfl⟩⟩
    · obtain ⟨front, back, same, before, behind⟩ := exists_intersperse separator mem
      refine ⟨first :: separator :: front, back, by rw [same]; rfl, .inr ?_, behind⟩
      rcases before with rfl | ⟨before, rfl⟩
      · exact ⟨[first], rfl⟩
      · exact ⟨first :: separator :: before, rfl⟩

/-- The lines of a section are lines of the page: blank lines stand in front of it and behind it. -/
theorem isInfix_strokeLines {sections : List Doc} {part : Doc} (mem : part ∈ sections)
    {ss : List Stroke} (drawn : (Doc.join Doc.blankLine sections).Draws 0 ss) :
    ∃ own, part.Draws 0 own ∧ strokeLines [] own <:+: strokeLines [] ss := by
  obtain ⟨front, back, same, before, behind⟩ := exists_intersperse Doc.blankLine mem
  rw [Doc.join, same] at drawn
  obtain ⟨above, _, drawnAbove, ⟨own, below, drawnOwn, drawnBelow, rfl⟩, rfl⟩ :=
    Doc.drawsAll_append drawn
  refine ⟨own, drawnOwn, ?_⟩
  have start : strokeLines [] (own ++ below) <:+ strokeLines [] (above ++ (own ++ below)) := by
    rcases before with rfl | ⟨before, rfl⟩
    · cases drawnAbove
      exact List.suffix_rfl
    · obtain ⟨far, near, -, ⟨feed, _, line, rfl, rfl⟩, rfl⟩ := Doc.drawsAll_append drawnAbove
      rw [draws_blankLine line]
      have cut := strokeLines_append_newLine [] (far ++ [.newLine 0]) 0 (own ++ below)
      simp only [List.append_assoc, List.cons_append, List.nil_append] at cut ⊢
      rw [cut]
      exact List.suffix_append ..
  have finish : strokeLines [] own <+: strokeLines [] (own ++ below) := by
    rcases behind with rfl | ⟨behind, rfl⟩
    · cases drawnBelow
      simp only [List.append_nil, List.prefix_rfl]
    · obtain ⟨feed, rest, line, -, rfl⟩ := drawnBelow
      rw [draws_blankLine line]
      exact strokeLines_append_newLine [] own 0 (.newLine 0 :: rest) ▸ List.prefix_append ..
  exact finish.isInfix.trans start.isInfix

end Mintage.Layout
