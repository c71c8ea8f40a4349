import Mintage.Proofs.Layout.Stroke

/-! What has room on a line stays on it: as long as what is measured fits, the line that is written
does not exceed the width. -/
namespace Mintage.Layout

mutual

/-- Every group has the mark that `grouped` gives to it, and no text holds a line feed. -/
def Doc.Regular : Doc → Prop
  | .nil => True
  | .text s => '\n' ∉ s.toList
  | .line _ => True
  | .concat parts => Doc.AllRegular parts
  | .indent inner => inner.Regular
  | .group broken inner => broken = inner.hasHardLine ∧ inner.Regular
  | .ifBreak broken flat => broken.Regular ∧ flat.Regular

def Doc.AllRegular : List Doc → Prop
  | [] => True
  | part :: parts => part.Regular ∧ Doc.AllRegular parts

end

theorem Room.take_andThen {used columns : Nat} {next : Nat → Room} :
    (Room.take used columns).andThen next ≠ .exceeded ↔
      used ≤ columns ∧ next (columns - used) ≠ .exceeded := by
  unfold Room.take
  split
  · rename_i fits
    simp [fits]
  · rename_i long
    simp [long]

/-- A group is measured together with all that stands behind it. -/
theorem fits_iff {next : Doc} {rest : List Frame} {columns : Nat} :
    fits next rest columns = true ↔
      (next.measure .flat columns).andThen (measureFrames rest) ≠ .exceeded := by
  rw [fits, bne_iff_ne]

/-- What is measured on the line in its mode still has room in the mode that is chosen for it. -/
theorem room_groupMode {width : Nat} {rest : List Frame} {mode : Mode} {broken : Bool} {inner : Doc}
    {sheet : Sheet} (fits : sheet.column ≤ width)
    (room : (inner.measure (mode.inside broken) (width - sheet.column)).andThen
      (measureFrames rest) ≠ .exceeded) :
    (inner.measure (groupMode width rest broken inner sheet) (width - sheet.column)).andThen
      (measureFrames rest) ≠ .exceeded := by
  unfold groupMode
  split
  · rename_i flat
    simp only [Bool.and_eq_true] at flat
    exact fits_iff.1 flat.2
  · rename_i notFlat
    cases broken with
    | true => exact room
    | false =>
      cases mode with
      | broken => exact room
      | flat => exact absurd (by simp [fits, fits_iff.2 room]) notFlat

namespace Sheet

/-- The line on which the sheet ends, and what stands in front of it. -/
structure Lines (sheet : Sheet) (before line : List Char) : Prop where
  chars : sheet.chars = before ++ line
  fresh : before = [] ∨ ∃ lines, before = lines ++ ['\n']
  inLine : '\n' ∉ line
  column : sheet.column = line.length

theorem lines_blank : blank.Lines [] [] := ⟨rfl, .inl rfl, by simp, rfl⟩

variable {sheet : Sheet} {before line : List Char}

theorem chars_write (sheet : Sheet) (s : String) :
    (sheet.write s).chars = sheet.chars ++ s.toList :=
  sheet.chars_draw (.text s)

theorem chars_breakLine (sheet : Sheet) (indent : Nat) :
    (sheet.breakLine indent).chars =
      unpadded sheet.chars ++ '\n' :: List.replicate indent ' ' :=
  sheet.chars_draw (.newLine indent)

theorem Lines.write (lines : sheet.Lines before line) {s : String} (inLine : '\n' ∉ s.toList) :
    (sheet.write s).Lines before (line ++ s.toList) where
  chars := by rw [chars_write, lines.chars, List.append_assoc]
  fresh := lines.fresh
  inLine := by simp [lines.inLine, inLine]
  column := by rw [List.length_append, ← lines.column, String.length_toList]; rfl

/-- Behind a line end the last line is the indentation. -/
theorem lines_breakLine (sheet : Sheet) (indent : Nat) :
    (sheet.breakLine indent).Lines (unpadded sheet.chars ++ ['\n'])
      (List.replicate indent ' ') where
  chars := by rw [chars_breakLine, List.append_assoc]; rfl
  fresh := .inr ⟨_, rfl⟩
  inLine := by simp
  column := by simp [Sheet.breakLine]

end Sheet

/-- The line at the end of a sheet is known. -/
def Sheet.IsLined (sheet : Sheet) : Prop := ∃ before line, sheet.Lines before line

theorem isLined_writeLine {sheet : Sheet} (lined : sheet.IsLined) (indent : Nat) (mode : Mode)
    (kind : Line) : (sheet.writeLine indent mode kind).IsLined := by
  obtain ⟨before, line, lines⟩ := lined
  unfold Sheet.writeLine
  split
  · exact ⟨_, _, lines⟩
  · exact ⟨_, _, lines.write (by decide)⟩
  · exact ⟨_, _, sheet.lines_breakLine indent⟩

mutual

/-- A regular document keeps the column of the sheet and the length of the last line equal. -/
theorem isLined_put (width : Nat) (rest : List Frame) (indent : Nat) (mode : Mode) :
    ∀ (doc : Doc) {sheet : Sheet}, doc.Regular → sheet.IsLined →
      (put width rest indent mode doc sheet).IsLined
  | .nil, _, _, lined => lined
  | .text _, _, regular, ⟨_, _, lines⟩ => ⟨_, _, lines.write regular⟩
  | .line kind, _, _, lined => isLined_writeLine lined indent mode kind
  | .concat parts, _, regular, lined => isLined_putAll width rest indent mode parts regular lined
  | .indent inner, _, regular, lined =>
    isLined_put width rest (indent + indentWidth) mode inner regular lined
  | .group broken inner, sheet, regular, lined =>
    isLined_put width rest indent (groupMode width rest broken inner sheet) inner regular.2 lined
  | .ifBreak broken flat, _, regular, lined => by
    cases mode with
    | broken => exact isLined_put width rest indent .broken broken regular.1 lined
    | flat => exact isLined_put width rest indent .flat flat regular.2 lined

theorem isLined_putAll (width : Nat) (rest : List Frame) (indent : Nat) (mode : Mode) :
    ∀ (parts : List Doc) {sheet : Sheet}, Doc.AllRegular parts → sheet.IsLined →
      (putAll width rest indent mode parts sheet).IsLined
  | [], _, _, lined => lined
  | part :: parts, _, regular, lined =>
    isLined_putAll width rest indent mode parts regular.2
      (isLined_put width (⟨mode, parts⟩ :: rest) indent mode part regular.1 lined)

end

/-- What stands in front of a line feed stays as it is. -/
theorem chars_foldl_draw_of_newLine (ss : List Stroke) {sheet : Sheet} {front later : List Char}
    (chars : sheet.chars = front ++ '\n' :: later) :
    ∃ later, (ss.foldl Sheet.draw sheet).chars = front ++ '\n' :: later := by
  have trimmed : ∃ later', unpadded sheet.chars = front ++ '\n' :: later' := by
    have feed : ('\n' :: later).all isSpace = false := rfl
    have cut := unpadded_append ['\n'] later
    rw [chars, unpadded_append, feed, if_neg (by decide)]
    rw [List.singleton_append] at cut
    rw [cut]
    split
    · exact ⟨[], rfl⟩
    · exact ⟨_, rfl⟩
  obtain ⟨later', trimmed⟩ := trimmed
  rw [chars_foldl_draw]
  split
  · exact ⟨later' ++ spell ss, by simp [trimmed]⟩
  · exact ⟨later ++ spell ss, by simp [chars]⟩

/-- How a sheet goes on: the line is still open and what is measured behind it has room, or the line
has ended in time. -/
inductive Grows (width : Nat) (rest : List Frame) (old new : Sheet) : Prop where
  | on (more : List Char) (inLine : '\n' ∉ more) (chars : new.chars = old.chars ++ more)
    (column : new.column = old.column + more.length) (fits : new.column ≤ width)
    (room : measureFrames rest (width - new.column) ≠ .exceeded)
  | ended (more later : List Char) (inLine : '\n' ∉ more)
    (fits : old.column + more.length ≤ width)
    (chars : new.chars = unpadded (old.chars ++ more) ++ '\n' :: later)

namespace Grows

variable {width : Nat} {rest next : List Frame} {old mid new : Sheet}

/-- What grows step by step grows as a whole. Behind a line end nothing more is asked of the second
step but to keep it. -/
theorem trans (first : Grows width next old mid)
    (second : mid.column ≤ width → measureFrames next (width - mid.column) ≠ .exceeded →
      Grows width rest mid new)
    (keeps : ∀ {front later}, mid.chars = front ++ '\n' :: later →
      ∃ later, new.chars = front ++ '\n' :: later) : Grows width rest old new := by
  cases first with
  | on more inLine chars column fits room =>
    cases second fits room with
    | on more' inLine' chars' column' fits' room' =>
      refine .on (more ++ more') (by simp [inLine, inLine']) ?_ ?_ fits' room'
      · rw [chars', chars, List.append_assoc]
      · rw [column', column, List.length_append, Nat.add_assoc]
    | ended more' later inLine' fits' chars' =>
      refine .ended (more ++ more') later (by simp [inLine, inLine']) ?_ ?_
      · rw [List.length_append, ← Nat.add_assoc, ← column]
        exact fits'
      · rw [chars', chars, List.append_assoc]
  | ended more later inLine fits chars =>
    obtain ⟨later', chars'⟩ := keeps chars
    exact .ended more later' inLine fits chars'

theorem refl (fits : old.column ≤ width)
    (room : measureFrames rest (width - old.column) ≠ .exceeded) : Grows width rest old old :=
  .on [] (by simp) (by simp) (by simp) fits room

theorem write (fits : old.column ≤ width) {s : String} (inLine : '\n' ∉ s.toList)
    (room : (Room.take s.length (width - old.column)).andThen (measureFrames rest) ≠ .exceeded) :
    Grows width rest old (old.write s) := by
  obtain ⟨short, later⟩ := Room.take_andThen.1 room
  have column : (old.write s).column = old.column + s.length := rfl
  refine .on s.toList inLine (old.chars_write s) ?_ (by omega) ?_
  · rw [column, String.length_toList]
  · rw [column, ← Nat.sub_sub]
    exact later

theorem breakLine (fits : old.column ≤ width) (indent : Nat) :
    Grows width rest old (old.breakLine indent) :=
  .ended [] _ (by simp) (by simpa using fits) (by rw [List.append_nil, old.chars_breakLine])

/-- A line is either written on, within the room that was measured, or it ends in time. -/
theorem writeLine (fits : old.column ≤ width) (indent : Nat) (mode : Mode) (kind : Line)
    (room : (kind.measure mode (width - old.column)).andThen (measureFrames rest) ≠ .exceeded) :
    Grows width rest old (old.writeLine indent mode kind) := by
  cases mode with
  | broken => exact breakLine fits indent
  | flat =>
    cases kind with
    | soft => exact refl fits room
    | space => exact write fits (by decide) room
    | hard => exact breakLine fits indent

end Grows

mutual

/-- A line that has room for a document and for what follows is not made too long by it. -/
theorem grows_put (width : Nat) (rest : List Frame) (indent : Nat) (mode : Mode) :
    ∀ (doc : Doc) {sheet : Sheet}, doc.Regular → sheet.column ≤ width →
      (doc.measure mode (width - sheet.column)).andThen (measureFrames rest) ≠ .exceeded →
      Grows width rest sheet (put width rest indent mode doc sheet)
  | .nil, _, _, fits, room => .refl fits room
  | .text _, _, regular, fits, room => .write fits regular room
  | .line kind, _, _, fits, room => .writeLine fits indent mode kind room
  | .concat parts, _, regular, fits, room =>
    grows_putAll width rest indent mode parts regular fits room
  | .indent inner, _, regular, fits, room =>
    grows_put width rest (indent + indentWidth) mode inner regular fits room
  | .group broken inner, sheet, regular, fits, room =>
    grows_put width rest indent (groupMode width rest broken inner sheet) inner regular.2 fits
      (room_groupMode fits room)
  | .ifBreak broken flat, _, regular, fits, room => by
    cases mode with
    | broken => exact grows_put width rest indent .broken broken regular.1 fits room
    | flat => exact grows_put width rest indent .flat flat regular.2 fits room

/-- The documents behind the first one are in view as a frame while it is written. -/
theorem grows_putAll (width : Nat) (rest : List Frame) (indent : Nat) (mode : Mode) :
    ∀ (parts : List Doc) {sheet : Sheet}, Doc.AllRegular parts → sheet.column ≤ width →
      (Doc.measureAll mode parts (width - sheet.column)).andThen (measureFrames rest) ≠ .exceeded →
      Grows width rest sheet (putAll width rest indent mode parts sheet)
  | [], _, _, fits, room => .refl fits room
  | part :: parts, sheet, regular, fits, room => by
    rw [Doc.measureAll_cons, Room.andThen_assoc] at room
    refine (grows_put width (⟨mode, parts⟩ :: rest) indent mode part regular.1 fits room).trans
      (grows_putAll width rest indent mode parts regular.2) fun chars => ?_
    obtain ⟨ss, -, same⟩ := exists_drawsAll width rest indent mode parts
      (put width (⟨mode, parts⟩ :: rest) indent mode part sheet)
    rw [putAll, same]
    exact chars_foldl_draw_of_newLine ss chars

end

end Mintage.Layout
