/-! Layout documents: texts with places where a line may be broken. -/
namespace Mintage.Layout

/-- A place for a line break: unbroken it is nothing, or a space; a hard one is always broken. -/
inductive Line where
  | soft
  | space
  | hard
  deriving DecidableEq, Repr

/-- A group is laid out on one line if it fits and is not marked as broken. -/
inductive Doc where
  | nil
  | text (s : String)
  | line (kind : Line)
  | concat (parts : List Doc)
  | indent (inner : Doc)
  | group (broken : Bool) (inner : Doc)
  | ifBreak (broken flat : Doc)
  deriving Repr

namespace Doc

instance : Inhabited Doc := ⟨nil⟩

mutual

/-- Whether the document cannot be laid out on one line. -/
def hasHardLine : Doc → Bool
  | nil => false
  | text _ => false
  | line kind => kind == .hard
  | concat parts => anyHardLine parts
  | indent inner => inner.hasHardLine
  | group broken _ => broken
  | ifBreak _ flat => flat.hasHardLine

def anyHardLine : List Doc → Bool
  | [] => false
  | part :: parts => part.hasHardLine || anyHardLine parts

end

@[simp] theorem anyHardLine_eq_any (parts : List Doc) :
    anyHardLine parts = parts.any hasHardLine := by
  induction parts with
  | nil => rfl
  | cons part parts ih => simp [anyHardLine, ih]

/-- The group that is broken exactly if its contents hold a hard line. -/
def grouped (inner : Doc) : Doc := group inner.hasHardLine inner

def softLine : Doc := line .soft
def spaceLine : Doc := line .space
def hardLine : Doc := line .hard

/-- Two hard lines, which leave one blank line between sections. -/
def blankLine : Doc := concat [hardLine, hardLine]

/-- The documents with the separator between neighbours. -/
def join (separator : Doc) (docs : List Doc) : Doc := concat (docs.intersperse separator)

end Doc

end Mintage.Layout
