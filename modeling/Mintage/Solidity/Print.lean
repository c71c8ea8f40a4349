import Mintage.Layout.Render
import Mintage.Solidity.Program
import Mintage.Text.Blank
import Mintage.Text.Quoted

/-! The text of programs: every part has a layout document. -/
namespace Mintage.Solidity

open Layout

def pageWidth : Nat := 80

def page (doc : Doc) : String := doc.render pageWidth

/-- Items behind commas, on one line or one to a line. -/
def commas (items : List Doc) : Doc := .join (.concat [.text ",", .spaceLine]) items

/-- Items in brackets; if the line is too long they are set in between the brackets. -/
def bracketed (opening closing : String) (items : List Doc) : Doc :=
  if items.isEmpty then .text (opening ++ closing)
  else
    .grouped (.concat [.text opening, .indent (.concat [.softLine, commas items]), .softLine,
      .text closing])

/-- The brace that follows a header, on a line of its own if the header was broken. -/
def openBrace : Doc := .ifBreak (.concat [.spaceLine, .text "\x7b"]) (.text " \x7b")

/-- What follows the brace that opens a block. -/
def blockTail (separator : Doc) (items : List Doc) : Doc :=
  if items.isEmpty then .text "\x7d"
  else .concat [.indent (.concat [.hardLine, .join separator items]), .hardLine, .text "\x7d"]

def block (items : List Doc) : Doc := .concat [.text "\x7b", blockTail .blankLine items]

def operation (left : Doc) (operator : String) (right : Doc) : Doc :=
  .grouped (.concat [left, .text (" " ++ operator), .indent (.concat [.spaceLine, right])])

/-- An operand that is itself an operation stands in parentheses. -/
def operand (compound : Bool) (doc : Doc) : Doc :=
  if compound then .concat [.text "(", doc, .text ")"] else doc

def boolText (value : Bool) : String := if value then "true" else "false"

/-- A member of a call may stand on the next line. -/
def memberDoc (ofCall : Bool) (object : Doc) (name : String) : Doc :=
  if ofCall then
    .grouped (.concat [object, .indent (.concat [.softLine, .text ("." ++ name)])])
  else .concat [object, .text ("." ++ name)]

mutual

def Expr.doc : Expr → Doc
  | .ident name => .text name
  | .number digits => .text digits
  | .string value => .text (Text.quoted value)
  | .bool value => .text (boolText value)
  | .member object name => memberDoc object.isCall object.doc name
  | .index object key => .concat [object.doc, .text "[", key.doc, .text "]"]
  | .call callee arguments =>
    .concat [callee.doc, bracketed "(" ")" (Expr.docs arguments)]
  | .callNamed callee arguments =>
    .concat [callee.doc, bracketed "(\x7b" "\x7d)" (Expr.namedDocs arguments)]
  | .assign target operator value => operation target.doc operator value.doc
  | .binary left operator right =>
    operation (operand left.isCompound left.doc) operator (operand right.isCompound right.doc)

def Expr.docs : List Expr → List Doc
  | [] => []
  | e :: es => e.doc :: Expr.docs es

def Expr.namedDocs : List (String × Expr) → List Doc
  | [] => []
  | (name, e) :: es => .concat [.text (name ++ ": "), e.doc] :: Expr.namedDocs es

end

/-- A declaration of a variable without its semicolon. -/
def Variable.header (v : Variable) : Doc :=
  let words := v.type :: v.modifiers ++ (if v.name.isEmpty then [] else [v.name])
  match v.value with
  | none => .concat [.text (Text.spaced words)]
  | some value =>
    .concat [.text (Text.spaced words), .text " =",
      .grouped (.indent (.concat [.spaceLine, value.doc]))]

def Variable.doc (v : Variable) : Doc := .concat [v.header, .text ";"]

mutual

def Stmt.doc : Stmt → Doc
  | .expr e => .concat [e.doc, .text ";"]
  | .decl v => v.doc
  | .ret none => .text "return;"
  | .ret (some e) => .concat [.text "return ", e.doc, .text ";"]
  | .cond test body alternative =>
    .concat ([.grouped (.concat [.text "if (", test.doc, .text ")"]), .text " ",
      block (Stmt.docs body)] ++ Stmt.alternativeDocs alternative)
  | .loop start test step body =>
    .concat [.text ("for (" ++ start ++ "; " ++ test ++ "; " ++ step ++ ") "),
      block (Stmt.docs body)]

def Stmt.docs : List Stmt → List Doc
  | [] => []
  | s :: ss => s.doc :: Stmt.docs ss

/-- An alternative that is one condition continues the chain, any other is a block. -/
def Stmt.alternativeDocs : Option (List Stmt) → List Doc
  | none => []
  | some [] => [.text " else ", block []]
  | some (s :: ss) =>
    [.text " else ",
      if s.isCond && ss.isEmpty then s.doc else block (s.doc :: Stmt.docs ss)]

end

/-- The lines of a comment, without the blanks at their ends. -/
def Comment.doc : Comment → Doc
  | .banner title => .text ("/** " ++ title ++ " **/")
  | .note text =>
    .join .hardLine ((Text.lines text).map fun line =>
      let line := Text.trimRight line
      .text (if line.isEmpty then "//" else "// " ++ line))

def argumentList (arguments : List String) : Doc := bracketed "(" ")" (arguments.map .text)

def Function.trailer (f : Function) : List Doc :=
  f.modifiers.map (fun modifier => .concat [.spaceLine, .text modifier]) ++
    match f.result with
    | none => []
    | some result => [.spaceLine, .text ("returns (" ++ result ++ ")")]

def Function.doc (f : Function) : Doc :=
  .concat [
    .grouped (.concat [.text ("function " ++ f.name), argumentList f.arguments,
      .indent (.concat f.trailer), openBrace]),
    blockTail .blankLine (Stmt.docs f.body)]

def Constructor.doc (c : Constructor) : Doc :=
  let base := match c.base with
    | none => .nil
    | some base => .indent (.concat [.spaceLine, base.doc])
  .concat [
    .grouped (.concat [.text "constructor", argumentList c.arguments, base, openBrace]),
    blockTail .blankLine (Stmt.docs c.body)]

def Declaration.doc : Declaration → Doc
  | .field v => v.doc
  | .function f => f.doc
  | .constructor c => c.doc
  | .record name members =>
    .concat [.text ("struct " ++ name ++ " \x7b"),
      blockTail .hardLine (members.map Variable.doc)]
  | .attach library type => .text ("using " ++ library ++ " for " ++ type ++ ";")

def Member.doc : Member → Doc
  | .declaration d => d.doc
  | .comment c => c.doc

def Contract.header (c : Contract) : Doc :=
  let bases :=
    if c.bases.isEmpty then []
    else [.text " is", .indent (.concat [.spaceLine, commas (c.bases.map .text)])]
  .grouped (.concat ([.text ("contract " ++ c.name)] ++ bases ++ [openBrace]))

def Contract.doc (c : Contract) : Doc :=
  .concat [c.header, blockTail .blankLine (c.body.map Member.doc)]

def Item.doc : Item → Doc
  | .contract c => c.doc
  | .comment c => c.doc

/-- The sections of a file: the first lines, the imports, and the contracts. -/
def Program.sections (p : Program) : List (Doc × List Doc) :=
  [(.hardLine,
      (p.license.map fun license => .text ("// SPDX-License-Identifier: " ++ license)).toList ++
      (p.pragma.map fun version => .text ("pragma solidity " ++ version ++ ";")).toList),
    (.hardLine, p.imports.map fun path => .text ("import " ++ Text.quoted path ++ ";")),
    (.blankLine, p.body.map Item.doc)]

/-- One blank line stands between the sections that are not empty. -/
def Program.doc (p : Program) : Doc :=
  .concat [
    .join .blankLine
      ((p.sections.filter (!·.2.isEmpty)).map fun part => .join part.1 part.2),
    .hardLine]

def Expr.print (e : Expr) : String := page e.doc
def Stmt.print (s : Stmt) : String := page s.doc
def Declaration.print (d : Declaration) : String := page d.doc
def Contract.print (c : Contract) : String := page c.doc
def Program.print (p : Program) : String := page p.doc

end Mintage.Solidity
