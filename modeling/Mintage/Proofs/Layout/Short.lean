import Mintage.Proofs.Layout.Visit

/-! A document whose text has room on the page is written on one line, even where its surroundings
are broken, if all its lines stand in groups. -/
namespace Mintage.Layout

mutual

/-- Every line can stay unbroken and stands in a group, no group is marked as broken, and nothing is
chosen. -/
def Doc.Calm (inGroup : Bool) : Doc → Prop
  | .nil => True
  | .text _ => True
  | .line kind => inGroup = true ∧ kind ≠ .hard
  | .concat parts => Doc.AllCalm inGroup parts
  | .indent inner => inner.Calm inGroup
  | .group broken inner => broken = false ∧ inner.Calm true
  | .ifBreak _ _ => False

def Doc.AllCalm (inGroup : Bool) : List Doc → Prop
  | [] => True
  | part :: parts => part.Calm inGroup ∧ Doc.AllCalm inGroup parts

end

mutual

theorem Doc.Calm.soft : ∀ (doc : Doc) {inGroup : Bool}, doc.Calm inGroup → doc.hasHardLine = false
  | .nil, _, _ => rfl
  | .text _, _, _ => rfl
  | .line _, _, calm => beq_false_of_ne calm.2
  | .concat parts, _, calm => Doc.AllCalm.soft parts calm
  | .indent inner, _, calm => Doc.Calm.soft inner calm
  | .group _ _, _, calm => calm.1
  | .ifBreak _ _, _, calm => calm.elim

theorem Doc.AllCalm.soft : ∀ (parts : List Doc) {inGroup : Bool}, Doc.AllCalm inGroup parts →
    Doc.anyHardLine parts = false
  | [], _, _ => rfl
  | part :: parts, _, calm =>
    Bool.or_eq_false_iff.2 ⟨Doc.Calm.soft part calm.1, Doc.AllCalm.soft parts calm.2⟩

end

mutual

/-- What stays on its line anywhere does so in a group. -/
theorem Doc.Calm.inGroup : ∀ (doc : Doc) {inGroup : Bool}, doc.Calm inGroup → doc.Calm true
  | .nil, _, _ => trivial
  | .text _, _, _ => trivial
  | .line _, _, calm => ⟨rfl, calm.2⟩
  | .concat parts, _, calm => Doc.AllCalm.inGroup parts calm
  | .indent inner, _, calm => Doc.Calm.inGroup inner calm
  | .group _ _, _, calm => calm
  | .ifBreak _ _, _, calm => calm.elim

theorem Doc.AllCalm.inGroup : ∀ (parts : List Doc) {inGroup : Bool}, Doc.AllCalm inGroup parts →
    Doc.AllCalm true parts
  | [], _, _ => trivial
  | part :: parts, _, calm =>
    ⟨Doc.Calm.inGroup part calm.1, Doc.AllCalm.inGroup parts calm.2⟩

end

namespace Doc

variable {inGroup : Bool}

theorem allCalm_iff {parts : List Doc} :
    AllCalm inGroup parts ↔ ∀ part ∈ parts, part.Calm inGroup := by
  induction parts with
  | nil => simp [AllCalm]
  | cons part parts ih => simp [AllCalm, ih]

@[simp] theorem calm_text (s : String) : (text s).Calm inGroup := trivial

@[simp] theorem calm_line {kind : Line} :
    (line kind).Calm inGroup ↔ inGroup = true ∧ kind ≠ .hard := Iff.rfl

@[simp] theorem calm_concat {parts : List Doc} :
    (concat parts).Calm inGroup ↔ ∀ part ∈ parts, part.Calm inGroup := allCalm_iff

@[simp] theorem calm_indent {inner : Doc} : (indent inner).Calm inGroup ↔ inner.Calm inGroup :=
  Iff.rfl

@[simp] theorem calm_grouped {inner : Doc} : (grouped inner).Calm inGroup ↔ inner.Calm true :=
  ⟨And.right, fun calm => ⟨Calm.soft inner calm, calm⟩⟩

end Doc

/-- If less is asked of what follows, the room that was enough is still enough. -/
theorem Room.andThen_ne_exceeded {room : Room} {f g : Nat → Room}
    (less : ∀ columns, f columns ≠ .exceeded → g columns ≠ .exceeded)
    (fits : room.andThen f ≠ .exceeded) : room.andThen g ≠ .exceeded := by
  cases room with
  | left columns => exact less columns fits
  | ended => exact fits
  | exceeded => exact fits

mutual

/-- Broken lines leave at least the room that unbroken ones do. -/
theorem Doc.Calm.room_broken : ∀ (doc : Doc) {inGroup : Bool}, doc.Calm inGroup →
    ∀ {next : Nat → Room} {columns : Nat},
      (doc.measure .flat columns).andThen next ≠ .exceeded →
      (doc.measure .broken columns).andThen next ≠ .exceeded
  | .nil, _, _, _, _, fits => fits
  | .text _, _, _, _, _, fits => fits
  | .line _, _, _, _, _, _ => nofun
  | .concat parts, _, calm, _, _, fits => Doc.AllCalm.room_broken parts calm fits
  | .indent inner, _, calm, _, _, fits => Doc.Calm.room_broken inner calm fits
  | .group broken inner, _, calm, _, _, fits => by
    cases calm.1
    exact Doc.Calm.room_broken inner calm.2 fits
  | .ifBreak _ _, _, calm, _, _, _ => calm.elim

theorem Doc.AllCalm.room_broken : ∀ (parts : List Doc) {inGroup : Bool},
    Doc.AllCalm inGroup parts → ∀ {next : Nat → Room} {columns : Nat},
      (Doc.measureAll .flat parts columns).andThen next ≠ .exceeded →
      (Doc.measureAll .broken parts columns).andThen next ≠ .exceeded
  | [], _, _, _, _, fits => fits
  | part :: parts, _, calm, next, columns, fits => by
    rw [Doc.measureAll_cons, Room.andThen_assoc] at fits ⊢
    exact Room.andThen_ne_exceeded (fun _ => Doc.AllCalm.room_broken parts calm.2)
      (Doc.Calm.room_broken part calm.1 fits)

end

/-- Any frames may stand behind a document, whatever their indentation is. -/
theorem exists_tasks (frames : List Frame) : ∃ tasks : List Task, tasks.map Task.frame = frames :=
  ⟨frames.map fun frame => ⟨0, frame.mode, frame.docs⟩, by simp [Function.comp_def, Task.frame]⟩

mutual

/-- Broken surroundings do not break a calm document: its lines stand in groups, and these are laid
out flat. -/
theorem Doc.Calm.put_broken (width : Nat) (rest : List Frame) (indent : Nat) :
    ∀ (doc : Doc) {sheet : Sheet}, doc.Regular → doc.Calm false → sheet.column ≤ width →
      (doc.measure .flat (width - sheet.column)).andThen (measureFrames rest) ≠ .exceeded →
      put width rest indent .broken doc sheet = sheet.write doc.flatText
  | .nil, sheet, _, _, _, _ => (LiesFlat.nil width sheet).sheet
  | .text _, _, _, _, _, _ => rfl
  | .line _, _, _, calm, _, _ => by cases calm.1
  | .concat parts, _, regular, calm, fits, room =>
    Doc.AllCalm.put_broken width rest indent parts regular calm fits room
  | .indent inner, _, regular, calm, fits, room =>
    Doc.Calm.put_broken width rest (indent + indentWidth) inner regular calm fits room
  | .group broken inner, sheet, regular, calm, fits, room => by
    obtain ⟨tasks, rfl⟩ := exists_tasks rest
    have soft := Doc.Calm.soft inner calm.2
    cases calm.1
    have flat : groupMode width (tasks.map Task.frame) false inner sheet = .flat := by
      have innerRoom : (inner.measure .flat (width - sheet.column)).andThen
          (measureFrames (tasks.map Task.frame)) ≠ .exceeded := room
      simp [groupMode, fits, fits_iff.2 innerRoom]
    rw [put, flat]
    exact (liesFlat_put width tasks indent inner regular.2 soft fits room).sheet
  | .ifBreak _ _, _, _, calm, _, _ => calm.elim

theorem Doc.AllCalm.put_broken (width : Nat) (rest : List Frame) (indent : Nat) :
    ∀ (parts : List Doc) {sheet : Sheet}, Doc.AllRegular parts → Doc.AllCalm false parts →
      sheet.column ≤ width →
      (Doc.measureAll .flat parts (width - sheet.column)).andThen (measureFrames rest) ≠
        .exceeded →
      putAll width rest indent .broken parts sheet = sheet.write (Doc.flatTextAll parts)
  | [], sheet, _, _, _, _ => (LiesFlat.nil width sheet).sheet
  | part :: parts, sheet, regular, calm, fits, room => by
    rw [Doc.measureAll_cons, Room.andThen_assoc] at room
    have first : put width (⟨.broken, parts⟩ :: rest) indent .broken part sheet =
        sheet.write part.flatText :=
      Doc.Calm.put_broken width _ indent part regular.1 calm.1 fits
        (Room.andThen_ne_exceeded (fun _ => Doc.AllCalm.room_broken parts calm.2) room)
    rw [measure_flat part regular.1 (Doc.Calm.soft part calm.1)] at room
    obtain ⟨short, later⟩ := Room.take_andThen.1 room
    have column : (sheet.write part.flatText).column = sheet.column + part.flatText.length := rfl
    have second : putAll width rest indent .broken parts (sheet.write part.flatText) =
        (sheet.write part.flatText).write (Doc.flatTextAll parts) :=
      Doc.AllCalm.put_broken width rest indent parts regular.2 calm.2 (by omega)
        (by rwa [column, ← Nat.sub_sub])
    rw [putAll, first, second]
    simp [Doc.flatTextAll, Sheet.write, Nat.add_assoc]

end

/-- A document whose text has room on the page is written on one line. -/
theorem Doc.render_of_short {doc : Doc} (regular : doc.Regular) (calm : doc.Calm false)
    {width : Nat} (short : doc.flatText.length ≤ width) : doc.render width = doc.flatText := by
  have room : (doc.measure .flat width).andThen (measureFrames []) ≠ .exceeded := by
    rw [measure_flat doc regular (Doc.Calm.soft doc calm), Room.take, if_pos short]
    intro exceeded
    cases exceeded
  have written : put width [] 0 .broken doc .blank = Sheet.blank.write doc.flatText :=
    Doc.Calm.put_broken width [] 0 doc regular calm (Nat.zero_le width) room
  rw [Doc.render, written]
  simp

end Mintage.Layout
