import Mintage.Layout.Fit

/-! The text of a document on a page of a given width. -/
namespace Mintage.Layout

/-- What is written so far, last character first, and the column reached. -/
structure Sheet where
  reversed : List Char
  column : Nat

namespace Sheet

def blank : Sheet := ⟨[], 0⟩

def text (sheet : Sheet) : String := String.ofList sheet.reversed.reverse

def write (sheet : Sheet) (s : String) : Sheet :=
  ⟨s.toList.reverse ++ sheet.reversed, sheet.column + s.length⟩

/-- Ends the line, without the spaces at its end, and indents the next one. -/
def breakLine (sheet : Sheet) (indent : Nat) : Sheet :=
  ⟨List.replicate indent ' ' ++ '\n' :: sheet.reversed.dropWhile (· == ' '), indent⟩

@[simp] theorem text_blank : blank.text = "" := rfl

@[simp] theorem text_write (sheet : Sheet) (s : String) :
    (sheet.write s).text = sheet.text ++ s := by
  apply String.toList_inj.1
  simp [text, write]

def writeLine (sheet : Sheet) (indent : Nat) (mode : Mode) (kind : Line) : Sheet :=
  match mode, kind with
  | .flat, .soft => sheet
  | .flat, .space => sheet.write " "
  | _, _ => sheet.breakLine indent

end Sheet

/-- The columns by which an inner line is set in. -/
def indentWidth : Nat := 2

/-- A group stays on the line if it may and if it fits with what follows it. -/
def groupMode (width : Nat) (rest : List Frame) (broken : Bool) (inner : Doc) (sheet : Sheet) :
    Mode :=
  if !broken && sheet.column ≤ width && fits inner rest (width - sheet.column) then .flat
  else .broken

mutual

/-- Writes a document that the frames `rest` follow. -/
def put (width : Nat) (rest : List Frame) (indent : Nat) (mode : Mode) : Doc → Sheet → Sheet
  | .nil, sheet => sheet
  | .text s, sheet => sheet.write s
  | .line kind, sheet => sheet.writeLine indent mode kind
  | .concat parts, sheet => putAll width rest indent mode parts sheet
  | .indent inner, sheet => put width rest (indent + indentWidth) mode inner sheet
  | .group broken inner, sheet =>
    put width rest indent (groupMode width rest broken inner sheet) inner sheet
  | .ifBreak broken flat, sheet =>
    match mode with
    | .broken => put width rest indent mode broken sheet
    | .flat => put width rest indent mode flat sheet

def putAll (width : Nat) (rest : List Frame) (indent : Nat) (mode : Mode) :
    List Doc → Sheet → Sheet
  | [], sheet => sheet
  | part :: parts, sheet =>
    putAll width rest indent mode parts
      (put width (⟨mode, parts⟩ :: rest) indent mode part sheet)

end

def Doc.render (doc : Doc) (width : Nat) : String :=
  (put width [] 0 .broken doc .blank).text

end Mintage.Layout
