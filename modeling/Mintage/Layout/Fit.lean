import Mintage.Layout.Doc

/-! Whether the rest of a line fits in the columns that are left. -/
namespace Mintage.Layout

/-- How line breaks are laid out. -/
inductive Mode where
  | flat
  | broken
  deriving DecidableEq, Repr

/-- Documents that are still to be laid out, and how. -/
structure Frame where
  mode : Mode
  docs : List Doc

/-- A line in the making: it has columns left, it ended in time, or it is too long. -/
inductive Room where
  | left (columns : Nat)
  | ended
  | exceeded
  deriving DecidableEq, Repr

namespace Room

def andThen : Room → (Nat → Room) → Room
  | left columns, next => next columns
  | ended, _ => ended
  | exceeded, _ => exceeded

@[simp] theorem andThen_left (columns : Nat) (next : Nat → Room) :
    (left columns).andThen next = next columns := rfl

@[simp] theorem andThen_ended (next : Nat → Room) : ended.andThen next = ended := rfl

@[simp] theorem andThen_exceeded (next : Nat → Room) : exceeded.andThen next = exceeded := rfl

theorem andThen_assoc (room : Room) (f g : Nat → Room) :
    (room.andThen f).andThen g = room.andThen fun columns => (f columns).andThen g := by
  cases room <;> rfl

/-- The room that is left after so many columns more. -/
def take (used columns : Nat) : Room :=
  if used ≤ columns then left (columns - used) else exceeded

end Room

/-- A group that is marked as broken is broken also where its surroundings are flat. -/
def Mode.inside (mode : Mode) (broken : Bool) : Mode := if broken then .broken else mode

/-- The columns that a line break takes, unless the line ends there. -/
def Line.measure (mode : Mode) (kind : Line) (columns : Nat) : Room :=
  match mode, kind with
  | .flat, .soft => .left columns
  | .flat, .space => Room.take 1 columns
  | _, _ => .ended

mutual

/-- The room left on the line after a document. -/
def Doc.measure (mode : Mode) : Doc → Nat → Room
  | .nil, columns => .left columns
  | .text s, columns => Room.take s.length columns
  | .line kind, columns => kind.measure mode columns
  | .concat parts, columns => Doc.measureAll mode parts columns
  | .indent inner, columns => inner.measure mode columns
  | .group broken inner, columns => inner.measure (mode.inside broken) columns
  | .ifBreak broken flat, columns =>
    match mode with
    | .broken => broken.measure mode columns
    | .flat => flat.measure mode columns

def Doc.measureAll (mode : Mode) : List Doc → Nat → Room
  | [], columns => .left columns
  | part :: parts, columns => (part.measure mode columns).andThen (Doc.measureAll mode parts)

end

@[simp] theorem Doc.measureAll_nil (mode : Mode) (columns : Nat) :
    Doc.measureAll mode [] columns = .left columns := rfl

@[simp] theorem Doc.measureAll_cons (mode : Mode) (part : Doc) (parts : List Doc)
    (columns : Nat) :
    Doc.measureAll mode (part :: parts) columns =
      (part.measure mode columns).andThen (Doc.measureAll mode parts) := rfl

theorem Doc.measureAll_append (mode : Mode) (parts more : List Doc) (columns : Nat) :
    Doc.measureAll mode (parts ++ more) columns =
      (Doc.measureAll mode parts columns).andThen (Doc.measureAll mode more) := by
  induction parts generalizing columns with
  | nil => simp
  | cons part parts ih =>
    have same : Doc.measureAll mode (parts ++ more) = fun left =>
        (Doc.measureAll mode parts left).andThen (Doc.measureAll mode more) := funext ih
    simp [same, Room.andThen_assoc]

/-- The room left on the line after the frames, the innermost of which comes first. -/
def measureFrames : List Frame → Nat → Room
  | [], columns => .left columns
  | frame :: rest, columns =>
    (Doc.measureAll frame.mode frame.docs columns).andThen (measureFrames rest)

/-- Whether a document on one line, and what follows it up to the next line break, fit. -/
def fits (next : Doc) (rest : List Frame) (columns : Nat) : Bool :=
  (next.measure .flat columns).andThen (measureFrames rest) != .exceeded

end Mintage.Layout
