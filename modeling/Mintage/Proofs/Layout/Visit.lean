import Mintage.Proofs.Layout.Room

/-! The groups that are met when a document is written. One that is laid out on one line stays there
with all that it holds, and its line is not longer than the width. -/
namespace Mintage.Layout

mutual

/-- The text of a document on one line. -/
def Doc.flatText : Doc → String
  | .nil => ""
  | .text s => s
  | .line kind => if kind = .space then " " else ""
  | .concat parts => Doc.flatTextAll parts
  | .indent inner => inner.flatText
  | .group _ inner => inner.flatText
  | .ifBreak _ flat => flat.flatText

def Doc.flatTextAll : List Doc → String
  | [] => ""
  | part :: parts => part.flatText ++ Doc.flatTextAll parts

end

/-- Documents that are still to be written, with their indentation. -/
structure Task where
  indent : Nat
  mode : Mode
  docs : List Doc

def Task.frame (task : Task) : Frame := ⟨task.mode, task.docs⟩

/-- The tasks are written one after the other. -/
def finish (width : Nat) : List Task → Sheet → Sheet
  | [], sheet => sheet
  | task :: tasks, sheet =>
    finish width tasks (putAll width (tasks.map Task.frame) task.indent task.mode task.docs sheet)

/-- A group when it is met: the sheet in front of it and the tasks behind it. -/
structure Visit where
  broken : Bool
  inner : Doc
  indent : Nat
  behind : List Task
  sheet : Sheet

namespace Visit

variable (width : Nat) (v : Visit)

/-- How the group is laid out. -/
def mode : Mode := groupMode width (v.behind.map Task.frame) v.broken v.inner v.sheet

/-- The sheet behind the group. -/
def after : Sheet := put width (v.behind.map Task.frame) v.indent (v.mode width) v.inner v.sheet

end Visit

mutual

/-- The groups that are met in a document, in their order. -/
def Doc.visits (width : Nat) (behind : List Task) (indent : Nat) (mode : Mode) :
    Doc → Sheet → List Visit
  | .nil, _ => []
  | .text _, _ => []
  | .line _, _ => []
  | .concat parts, sheet => Doc.visitsAll width behind indent mode parts sheet
  | .indent inner, sheet => inner.visits width behind (indent + indentWidth) mode sheet
  | .group broken inner, sheet =>
    ⟨broken, inner, indent, behind, sheet⟩ ::
      inner.visits width behind indent
        (groupMode width (behind.map Task.frame) broken inner sheet) sheet
  | .ifBreak broken flat, sheet =>
    match mode with
    | .broken => broken.visits width behind indent mode sheet
    | .flat => flat.visits width behind indent mode sheet

def Doc.visitsAll (width : Nat) (behind : List Task) (indent : Nat) (mode : Mode) :
    List Doc → Sheet → List Visit
  | [], _ => []
  | part :: parts, sheet =>
    part.visits width (⟨indent, mode, parts⟩ :: behind) indent mode sheet ++
      Doc.visitsAll width behind indent mode parts
        (put width (⟨mode, parts⟩ :: behind.map Task.frame) indent mode part sheet)

end

/-- The groups that are met when a document is written on a page of its own. -/
def Doc.allVisits (doc : Doc) (width : Nat) : List Visit := doc.visits width [] 0 .broken .blank

/-- The groups that are met inside of a group. -/
def Visit.inside (width : Nat) (v : Visit) : List Visit :=
  v.inner.visits width v.behind v.indent (v.mode width) v.sheet

/-- The page has this line behind these characters; the spaces at the end of a line are left out. -/
def HasLine (page before line : List Char) : Prop :=
  page = before ++ line ∨ ∃ later, page = before ++ unpadded line ++ '\n' :: later

mutual

theorem notMem_flatText : ∀ doc : Doc, doc.Regular → '\n' ∉ doc.flatText.toList
  | .nil, _ => by simp [Doc.flatText]
  | .text _, regular => regular
  | .line kind, _ => by cases kind <;> decide
  | .concat parts, regular => notMem_flatTextAll parts regular
  | .indent inner, regular => notMem_flatText inner regular
  | .group _ inner, regular => notMem_flatText inner regular.2
  | .ifBreak _ flat, regular => notMem_flatText flat regular.2

theorem notMem_flatTextAll : ∀ parts : List Doc, Doc.AllRegular parts →
    '\n' ∉ (Doc.flatTextAll parts).toList
  | [], _ => by simp [Doc.flatTextAll]
  | part :: parts, regular => by
    rw [Doc.flatTextAll, String.toList_append, List.mem_append, not_or]
    exact ⟨notMem_flatText part regular.1, notMem_flatTextAll parts regular.2⟩

end

@[simp] theorem Room.take_zero (columns : Nat) : Room.take 0 columns = .left columns := by
  simp [Room.take]

theorem Room.take_take (used more columns : Nat) :
    (Room.take used columns).andThen (Room.take more) = Room.take (used + more) columns := by
  unfold Room.take
  by_cases short : used ≤ columns
  · rw [if_pos short, Room.andThen_left, Nat.sub_sub]
    by_cases all : used + more ≤ columns
    · rw [if_pos all, if_pos (by omega)]
    · rw [if_neg all, if_neg (by omega)]
  · rw [if_neg short, if_neg (by omega)]
    rfl

mutual

/-- On one line a document takes as many columns as its text has characters. -/
theorem measure_flat : ∀ doc : Doc, doc.Regular → doc.hasHardLine = false →
    doc.measure .flat = Room.take doc.flatText.length
  | .nil, _, _ => by
    funext columns
    simp [Doc.measure, Doc.flatText]
  | .text _, _, _ => rfl
  | .line kind, _, soft => by
    funext columns
    cases kind with
    | soft => simp [Doc.measure, Line.measure, Doc.flatText]
    | space => rfl
    | hard => cases soft
  | .concat parts, regular, soft => measureAll_flat parts regular soft
  | .indent inner, regular, soft => measure_flat inner regular soft
  | .group broken inner, regular, soft => by
    have notBroken : broken = false := soft
    have innerSoft : inner.hasHardLine = false := regular.1.symm.trans notBroken
    rw [notBroken]
    exact measure_flat inner regular.2 innerSoft
  | .ifBreak _ flat, regular, soft => measure_flat flat regular.2 soft

theorem measureAll_flat : ∀ parts : List Doc, Doc.AllRegular parts →
    Doc.anyHardLine parts = false →
    Doc.measureAll .flat parts = Room.take (Doc.flatTextAll parts).length
  | [], _, _ => by
    funext columns
    simp [Doc.flatTextAll]
  | part :: parts, regular, soft => by
    rw [Doc.anyHardLine, Bool.or_eq_false_iff] at soft
    funext columns
    rw [Doc.measureAll_cons, measure_flat part regular.1 soft.1,
      measureAll_flat parts regular.2 soft.2, Room.take_take, Doc.flatTextAll, String.length_append]

end

/-- A document lies flat on the sheet: its text is written, and all groups in it lie flat. -/
structure LiesFlat (width : Nat) (text : String) (visits : List Visit) (old new : Sheet) :
    Prop where
  sheet : new = old.write text
  groups : ∀ w ∈ visits, w.mode width = .flat

namespace LiesFlat

variable {width : Nat} {s t : String} {vs ws : List Visit} {old mid new : Sheet}

theorem nil (width : Nat) (sheet : Sheet) : LiesFlat width "" [] sheet sheet := by
  refine ⟨?_, nofun⟩
  cases sheet
  rfl

theorem append (first : LiesFlat width s vs old mid) (second : LiesFlat width t ws mid new) :
    LiesFlat width (s ++ t) (vs ++ ws) old new := by
  refine ⟨?_, List.forall_mem_append.2 ⟨first.groups, second.groups⟩⟩
  rw [second.sheet, first.sheet]
  simp [Sheet.write, Nat.add_assoc]

end LiesFlat

mutual

/-- A document without hard lines that has room lies flat where its surroundings do. -/
theorem liesFlat_put (width : Nat) (behind : List Task) (indent : Nat) :
    ∀ (doc : Doc) {sheet : Sheet}, doc.Regular → doc.hasHardLine = false → sheet.column ≤ width →
      (doc.measure .flat (width - sheet.column)).andThen (measureFrames (behind.map Task.frame)) ≠
        .exceeded →
      LiesFlat width doc.flatText (doc.visits width behind indent .flat sheet) sheet
        (put width (behind.map Task.frame) indent .flat doc sheet)
  | .nil, sheet, _, _, _, _ => .nil width sheet
  | .text _, _, _, _, _, _ => ⟨rfl, nofun⟩
  | .line kind, sheet, _, soft, _, _ => by
    cases kind with
    | soft => exact .nil width sheet
    | space => exact ⟨rfl, nofun⟩
    | hard => cases soft
  | .concat parts, _, regular, soft, fits, room =>
    liesFlat_putAll width behind indent parts regular soft fits room
  | .indent inner, _, regular, soft, fits, room =>
    liesFlat_put width behind (indent + indentWidth) inner regular soft fits room
  | .group broken inner, sheet, regular, soft, fits, room => by
    have notBroken : broken = false := soft
    have innerSoft : inner.hasHardLine = false := regular.1.symm.trans notBroken
    subst notBroken
    have innerRoom : (inner.measure .flat (width - sheet.column)).andThen
        (measureFrames (behind.map Task.frame)) ≠ .exceeded := room
    have flat : groupMode width (behind.map Task.frame) false inner sheet = .flat := by
      simp [groupMode, fits, fits_iff.2 innerRoom]
    have lies := liesFlat_put width behind indent inner regular.2 innerSoft fits room
    rw [put, Doc.visits, flat]
    exact ⟨lies.sheet, List.forall_mem_cons.2 ⟨flat, lies.groups⟩⟩
  | .ifBreak _ flat, _, regular, soft, fits, room =>
    liesFlat_put width behind indent flat regular.2 soft fits room

theorem liesFlat_putAll (width : Nat) (behind : List Task) (indent : Nat) :
    ∀ (parts : List Doc) {sheet : Sheet}, Doc.AllRegular parts → Doc.anyHardLine parts = false →
      sheet.column ≤ width →
      (Doc.measureAll .flat parts (width - sheet.column)).andThen
        (measureFrames (behind.map Task.frame)) ≠ .exceeded →
      LiesFlat width (Doc.flatTextAll parts)
        (Doc.visitsAll width behind indent .flat parts sheet) sheet
        (putAll width (behind.map Task.frame) indent .flat parts sheet)
  | [], sheet, _, _, _, _ => .nil width sheet
  | part :: parts, sheet, regular, soft, fits, room => by
    rw [Doc.anyHardLine, Bool.or_eq_false_iff] at soft
    rw [Doc.measureAll_cons, Room.andThen_assoc] at room
    have first := liesFlat_put width (⟨indent, .flat, parts⟩ :: behind) indent part regular.1
      soft.1 fits room
    rw [measure_flat part regular.1 soft.1] at room
    obtain ⟨short, later⟩ := Room.take_andThen.1 room
    have column : (sheet.write part.flatText).column = sheet.column + part.flatText.length := rfl
    have written : put width (⟨.flat, parts⟩ :: behind.map Task.frame) indent .flat part sheet =
        sheet.write part.flatText := first.sheet
    refine first.append (liesFlat_putAll width behind indent parts regular.2 soft.2 ?_ ?_)
    · rw [written, column]
      omega
    · rw [written, column, ← Nat.sub_sub]
      exact later

end

/-- Documents to which the promises of the layout apply. -/
def Task.Regular (task : Task) : Prop := Doc.AllRegular task.docs

theorem chars_finish_of_newLine (width : Nat) (tasks : List Task) {sheet : Sheet}
    {front later : List Char} (chars : sheet.chars = front ++ '\n' :: later) :
    ∃ later, (finish width tasks sheet).chars = front ++ '\n' :: later := by
  induction tasks generalizing sheet later with
  | nil => exact ⟨later, chars⟩
  | cons task tasks ih =>
    obtain ⟨ss, -, same⟩ :=
      exists_drawsAll width (tasks.map Task.frame) task.indent task.mode task.docs sheet
    obtain ⟨later', kept⟩ := chars_foldl_draw_of_newLine ss chars
    rw [← same] at kept
    exact ih kept

/-- The line that has room for the tasks is not made too long by them. -/
theorem grows_finish (width : Nat) (tasks : List Task) (regular : ∀ task ∈ tasks, task.Regular)
    {sheet : Sheet} (fits : sheet.column ≤ width)
    (room : measureFrames (tasks.map Task.frame) (width - sheet.column) ≠ .exceeded) :
    Grows width [] sheet (finish width tasks sheet) := by
  induction tasks generalizing sheet with
  | nil => exact .refl fits room
  | cons task tasks ih =>
    rw [List.forall_mem_cons] at regular
    exact (grows_putAll width (tasks.map Task.frame) task.indent task.mode task.docs regular.1 fits
      room).trans (ih regular.2) (chars_finish_of_newLine width tasks)

/-- What holds of every group that is met on the way to a page. -/
structure Visit.Proper (width : Nat) (page : Sheet) (v : Visit) : Prop where
  mark : v.broken = v.inner.hasHardLine
  regular : v.inner.Regular
  lined : v.sheet.IsLined
  later : ∀ task ∈ v.behind, task.Regular
  page : finish width v.behind (v.after width) = page

mutual

/-- The state of a visit is that of the walk over the document, so each step hands the invariant
on. -/
theorem proper_visits (width : Nat) {page : Sheet} (behind : List Task)
    (later : ∀ task ∈ behind, task.Regular) (indent : Nat) (mode : Mode) :
    ∀ (doc : Doc) {sheet : Sheet}, doc.Regular → sheet.IsLined →
      finish width behind (put width (behind.map Task.frame) indent mode doc sheet) = page →
      ∀ v ∈ doc.visits width behind indent mode sheet, v.Proper width page
  | .nil, _, _, _, _ => nofun
  | .text _, _, _, _, _ => nofun
  | .line _, _, _, _, _ => nofun
  | .concat parts, _, regular, lined, ends =>
    proper_visitsAll width behind later indent mode parts regular lined ends
  | .indent inner, _, regular, lined, ends =>
    proper_visits width behind later (indent + indentWidth) mode inner regular lined ends
  | .group broken inner, sheet, regular, lined, ends =>
    List.forall_mem_cons.2 ⟨⟨regular.1, regular.2, lined, later, ends⟩,
      proper_visits width behind later indent
        (groupMode width (behind.map Task.frame) broken inner sheet) inner regular.2 lined ends⟩
  | .ifBreak broken flat, _, regular, lined, ends => by
    cases mode with
    | broken => exact proper_visits width behind later indent .broken broken regular.1 lined ends
    | flat => exact proper_visits width behind later indent .flat flat regular.2 lined ends

theorem proper_visitsAll (width : Nat) {page : Sheet} (behind : List Task)
    (later : ∀ task ∈ behind, task.Regular) (indent : Nat) (mode : Mode) :
    ∀ (parts : List Doc) {sheet : Sheet}, Doc.AllRegular parts → sheet.IsLined →
      finish width behind (putAll width (behind.map Task.frame) indent mode parts sheet) = page →
      ∀ v ∈ Doc.visitsAll width behind indent mode parts sheet, v.Proper width page
  | [], _, _, _, _ => nofun
  | part :: parts, _, regular, lined, ends => by
    refine List.forall_mem_append.2 ⟨?_, ?_⟩
    · exact proper_visits width (⟨indent, mode, parts⟩ :: behind)
        (List.forall_mem_cons.2 ⟨regular.2, later⟩) indent mode part regular.1 lined ends
    · exact proper_visitsAll width behind later indent mode parts regular.2
        (isLined_put width _ indent mode part regular.1 lined) ends

end

/-- On a page of its own, a document is walked over from its first group to its last. -/
theorem Doc.proper_allVisits {doc : Doc} (regular : doc.Regular) (width : Nat) :
    ∀ v ∈ doc.allVisits width, v.Proper width (put width [] 0 .broken doc .blank) :=
  proper_visits width [] nofun 0 .broken doc regular ⟨_, _, Sheet.lines_blank⟩ rfl

/-- A group is laid out on one line only if it may be and has room. -/
theorem Visit.mode_eq_flat {width : Nat} {v : Visit} (flat : v.mode width = .flat) :
    v.broken = false ∧ v.sheet.column ≤ width ∧
      (v.inner.measure .flat (width - v.sheet.column)).andThen
        (measureFrames (v.behind.map Task.frame)) ≠ .exceeded := by
  rw [Visit.mode, groupMode] at flat
  split at flat
  · rename_i chosen
    simpa [fits_iff, and_assoc] using chosen
  · cases flat

/-- On a sheet whose lines are known, the spaces at the end concern the last line only. -/
theorem Sheet.Lines.unpadded {sheet : Sheet} {before line : List Char}
    (lines : sheet.Lines before line) (more : List Char) :
    Layout.unpadded (before ++ more) = before ++ Layout.unpadded more := by
  rw [unpadded_append]
  split
  · rename_i spaces
    rw [unpadded_eq_nil spaces, List.append_nil]
    rcases lines.fresh with rfl | ⟨front, rfl⟩
    · rfl
    · rw [unpadded_append, if_neg (by decide)]
      rfl
  · rfl

/-- The line of a sheet from which a page grows is not longer than the width. -/
theorem Grows.exists_line {width : Nat} {old new : Sheet} {before line : List Char}
    (grows : Grows width [] old new) (lines : old.Lines before line) :
    ∃ rest, '\n' ∉ rest ∧ (line ++ rest).length ≤ width ∧
      HasLine new.chars before (line ++ rest) := by
  have column := lines.column
  cases grows with
  | on more inLine chars column' fits =>
    refine ⟨more, inLine, ?_, .inl ?_⟩
    · rw [List.length_append]
      omega
    · rw [chars, lines.chars, List.append_assoc]
  | ended more later inLine fits chars =>
    refine ⟨more, inLine, ?_, .inr ⟨later, ?_⟩⟩
    · rw [List.length_append]
      omega
    · rw [chars, lines.chars, List.append_assoc, lines.unpadded]

end Mintage.Layout
