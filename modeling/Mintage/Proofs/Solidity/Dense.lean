import Mintage.Proofs.Solidity.Gathering
import Mintage.Proofs.Text.Plain
import Mintage.Proofs.Text.Skeleton

/-! What is left of a page when the spaces and line feeds outside of its literals are deleted. For
an expression it is put together from what is left of its parts. -/
namespace Mintage.Text

open Layout

/-- Gaps are let through in literals only. -/
def Quoting.inked : Quoting → Char → List Char
  | .code, c => if isGap c then [] else [c]
  | _, c => [c]

/-- The text without the spaces and line feeds outside of its literals. -/
def dense (cs : List Char) : List Char := Quoting.code.pass Quoting.inked cs

/-- Two texts may be taken one by one if the first one closes its literals. -/
theorem dense_append {s t : String} (closed : closesLiterals s = true) :
    dense (s ++ t).toList = dense s.toList ++ dense t.toList := by
  rw [String.toList_append]
  exact Quoting.pass_append_of_run (run_eq_code closed) t.toList

/-- Nothing is deleted from a literal. -/
theorem dense_quoted (s : String) : dense (quoted s).toList = (quoted s).toList := by
  have inside := (pass_quoted Quoting.inked (fun c => [c]) (fun _ => rfl) (fun _ => rfl) s).1
  rw [dense, inside, quoted, String.toList_ofList, List.flatMap_singleton']
  rfl

/-- Whether a text holds neither gaps nor literals. -/
def isInked (s : String) : Bool := s.toList.all fun c => c != '"' && !isGap c

/-- Neither gaps nor quotes come in when two texts are put together. -/
theorem isInked_append {s t : String} (first : isInked s = true) (second : isInked t = true) :
    isInked (s ++ t) = true := by
  rw [isInked, String.toList_append, List.all_append, Bool.and_eq_true]
  exact ⟨first, second⟩

theorem closesLiterals_of_isInked {s : String} (inked : isInked s = true) :
    closesLiterals s = true := by
  refine closesLiterals_of_notMem fun quote => ?_
  have other := List.all_eq_true.1 inked _ quote
  simp at other

/-- Without gaps there is nothing to delete. -/
theorem dense_of_isInked {s : String} (inked : isInked s = true) : dense s.toList = s.toList := by
  have whole (cs : List Char) (inked : (cs.all fun c => c != '"' && !isGap c) = true) :
      Quoting.code.pass Quoting.inked cs = cs := by
    induction cs with
    | nil => rfl
    | cons c cs ih =>
      rw [List.all_cons, Bool.and_eq_true, Bool.and_eq_true, bne_iff_ne, Bool.not_eq_true'] at inked
      obtain ⟨⟨notQuote, solid⟩, later⟩ := inked
      have stays : Quoting.code.step c = .code := by rw [Quoting.step, if_neg notQuote]
      have kept : Quoting.inked .code c = [c] := by simp [Quoting.inked, solid]
      rw [Quoting.pass, stays, kept, ih later]
      rfl
  exact whole s.toList inked

theorem isInked_of_all {s : String} (all : s.toList.all continuesName = true) :
    isInked s = true := by
  refine List.all_eq_true.2 fun c mem => ?_
  have continues := List.all_eq_true.1 all c mem
  have other (d : Char) (stops : continuesName d = false) : c ≠ d := by
    rintro rfl
    rw [continues] at stops
    cases stops
  simp [isGap, other '"' rfl, other ' ' rfl, other '\n' rfl]

/-- A name holds neither gaps nor quotes. -/
theorem isInked_of_isName {s : String} (name : isName s = true) : isInked s = true :=
  isInked_of_all (all_of_isName name)

end Mintage.Text

namespace Mintage.Solidity

open Layout Text

/-- Texts that close their literals may be put together to documents. -/
theorem closed_closesLiterals : Closed fun t => closesLiterals t = true where
  plain _ plain := closesLiterals_of_notMem plain.1
  quoted := closesLiterals_quoted
  append := closesLiterals_append

end Mintage.Solidity

namespace Mintage.Layout.Doc

open Solidity Text

/-- If gaps are not let through and the texts of a document close their literals, the page closes
its literals, and the same is let through of it and of the texts. -/
theorem pass_render {out : Quoting → Char → List Char}
    (gaps : ∀ c, isGap c = true → out .code c = []) {doc : Doc}
    (made : doc.Made fun t => closesLiterals t = true) (width : Nat) :
    Quoting.code.pass out (doc.render width).toList =
        doc.gather (fun t => Quoting.code.pass out t.toList) ∧
      Quoting.code.run (doc.render width).toList = .code := by
  obtain ⟨ts, reads, typeset⟩ := doc.typeset_render width
  obtain ⟨same, ends⟩ := pass_typeset gaps typeset (made.of_reads _ reads)
  refine ⟨?_, ends⟩
  rw [same]
  refine made.flatMap_reads ?_ _ reads
  have space : out .code ' ' = [] := gaps ' ' rfl
  exact (congrArg (· ++ Quoting.code.pass out ['\x7b']) space).symm

/-- What is left of the texts of a document. -/
def dense (doc : Doc) : List Char := doc.gather fun t => Text.dense t.toList

@[simp] theorem dense_text (t : String) : (text t).dense = Text.dense t.toList := gather_text t

@[simp] theorem dense_line (kind : Line) : (line kind).dense = [] := rfl

@[simp] theorem dense_indent (inner : Doc) : (indent inner).dense = inner.dense := rfl

@[simp] theorem dense_grouped (inner : Doc) : (grouped inner).dense = inner.dense := rfl

@[simp] theorem dense_concat (docs : List Doc) : (concat docs).dense = docs.flatMap dense :=
  gather_concat docs

theorem dense_join (separator : Doc) (docs : List Doc) :
    (join separator docs).dense = separator.dense.intercalate (docs.map dense) :=
  gather_join_eq_intercalate separator docs

/-- The width decides on gaps only, so it is gone with them. -/
theorem dense_render {doc : Doc} (made : doc.Made fun t => closesLiterals t = true) (width : Nat) :
    Text.dense (doc.render width).toList = doc.dense := by
  have gaps (c : Char) (gap : isGap c = true) : Quoting.inked .code c = [] := by
    rw [Quoting.inked, if_pos gap]
  exact (pass_render gaps made width).1

end Mintage.Layout.Doc

namespace Mintage.Solidity

open Layout Text

/-- Of the layout of items in brackets the brackets and the commas are left. -/
theorem dense_bracketed {opening closing : String} (opens : isInked opening = true)
    (closes : isInked closing = true) (items : List Doc) :
    (bracketed opening closing items).dense =
      opening.toList ++ (List.intercalate [','] (items.map Doc.dense) ++ closing.toList) := by
  have comma : (Doc.concat [.text ",", .spaceLine]).dense = [','] := rfl
  have softLine : Doc.softLine.dense = [] := rfl
  unfold bracketed
  split
  · rename_i none
    rw [Doc.dense_text, dense_of_isInked (isInked_append opens closes), List.isEmpty_iff.1 none,
      String.toList_append]
    rfl
  · simp [softLine, dense_of_isInked opens, dense_of_isInked closes, commas, Doc.dense_join, comma]

theorem dense_operation (left right : Doc) {operator : String} (inked : isInked operator = true) :
    (operation left operator right).dense = left.dense ++ (operator.toList ++ right.dense) := by
  have spaced : Text.dense (' ' :: operator.toList) = operator.toList := dense_of_isInked inked
  have spaceLine : Doc.spaceLine.dense = [] := rfl
  simp [operation, spaced, spaceLine]

namespace Expr

/-- What is left of the texts of an expression. -/
def dense (e : Expr) : List Char := e.doc.dense

theorem dense_render {e : Expr} (inked : ∀ piece ∈ e.pieces, isInked piece.2 = true)
    (width : Nat) : Text.dense (e.doc.render width).toList = e.dense := by
  have built := closed_closesLiterals.built_expr e fun piece mem =>
    closesLiterals_of_isInked (inked piece mem)
  exact Doc.dense_render built.made width

/-- An operand with its parentheses. -/
def denseOperand (e : Expr) : List Char :=
  if e.isCompound then '(' :: (e.dense ++ [')']) else e.dense

/-- Parentheses around an operand are kept, for they are signs. -/
theorem dense_operand (e : Expr) : (operand e.isCompound e.doc).dense = e.denseOperand := by
  have opened : Text.dense "(".toList = ['('] := rfl
  have closed : Text.dense ")".toList = [')'] := rfl
  unfold operand denseOperand
  split
  · rw [Doc.dense_concat]
    simp only [List.flatMap_cons, List.flatMap_nil, Doc.dense_text, opened, closed]
    rfl
  · rfl

theorem dense_ident {name : String} (inked : isInked name = true) :
    (ident name).dense = name.toList := by
  rw [dense, doc, Doc.dense_text, dense_of_isInked inked]

theorem dense_number {digits : String} (inked : isInked digits = true) :
    (number digits).dense = digits.toList := by
  rw [dense, doc, Doc.dense_text, dense_of_isInked inked]

theorem dense_string (value : String) : (string value).dense = (quoted value).toList := by
  rw [dense, doc, Doc.dense_text, dense_quoted]

theorem dense_bool (value : Bool) : (bool value).dense = (boolText value).toList := by
  cases value <;> rfl

theorem dense_member (object : Expr) {name : String} (inked : isInked name = true) :
    (member object name).dense = object.dense ++ '.' :: name.toList := by
  have text : Text.dense ('.' :: name.toList) = '.' :: name.toList :=
    congrArg ('.' :: ·) (dense_of_isInked inked)
  have softLine : Doc.softLine.dense = [] := rfl
  change (memberDoc object.isCall object.doc name).dense = object.doc.dense ++ _
  unfold memberDoc
  split <;> simp [text, softLine]

theorem dense_index (object key : Expr) :
    (index object key).dense = object.dense ++ '[' :: (key.dense ++ [']']) := by
  have opened : Text.dense "[".toList = ['['] := rfl
  have closed : Text.dense "]".toList = [']'] := rfl
  change (Doc.concat [object.doc, .text "[", key.doc, .text "]"]).dense = _
  rw [Doc.dense_concat]
  simp only [List.flatMap_cons, List.flatMap_nil, Doc.dense_text, opened, closed]
  rfl

theorem dense_call (callee : Expr) (arguments : List Expr) :
    (call callee arguments).dense =
      callee.dense ++ '(' :: (List.intercalate [','] (arguments.map dense) ++ [')']) := by
  have inside := dense_bracketed (show isInked "(" = true by decide)
    (show isInked ")" = true by decide) (docs arguments)
  rw [docs_eq_map, List.map_map] at inside
  change (Doc.concat [callee.doc, bracketed "(" ")" (docs arguments)]).dense = _
  rw [Doc.dense_concat, docs_eq_map, List.flatMap_cons, List.flatMap_singleton, inside]
  rfl

/-- Named arguments have braces inside of the parentheses. -/
theorem dense_callNamed (callee : Expr) {arguments : List (String × Expr)}
    (inked : ∀ a ∈ arguments, isInked a.1 = true) :
    (callNamed callee arguments).dense =
      callee.dense ++ '(' :: '\x7b' ::
        (List.intercalate [','] (arguments.map fun a => a.1.toList ++ ':' :: a.2.dense) ++
          ['\x7d', ')']) := by
  have inside := dense_bracketed (show isInked "(\x7b" = true by decide)
    (show isInked "\x7d)" = true by decide) (namedDocs arguments)
  have items : (namedDocs arguments).map Doc.dense =
      arguments.map fun a => a.1.toList ++ ':' :: a.2.dense := by
    rw [namedDocs_eq_map, List.map_map]
    refine List.map_congr_left fun a mem => ?_
    have label : Text.dense (a.1 ++ ": ").toList = a.1.toList ++ [':'] := by
      rw [dense_append (closesLiterals_of_isInked (inked a mem)), dense_of_isInked (inked a mem)]
      rfl
    rw [Function.comp_apply, Doc.dense_concat, List.flatMap_cons, List.flatMap_singleton,
      Doc.dense_text, label, List.append_assoc]
    rfl
  rw [items] at inside
  change (Doc.concat [callee.doc, bracketed "(\x7b" "\x7d)" (namedDocs arguments)]).dense = _
  rw [Doc.dense_concat, List.flatMap_cons, List.flatMap_singleton, inside]
  rfl

theorem dense_assign (target value : Expr) {operator : String} (inked : isInked operator = true) :
    (assign target operator value).dense = target.dense ++ (operator.toList ++ value.dense) :=
  dense_operation target.doc value.doc inked

/-- Operations are the only operands that get parentheses. -/
theorem dense_binary (left right : Expr) {operator : String} (inked : isInked operator = true) :
    (binary left operator right).dense =
      left.denseOperand ++ (operator.toList ++ right.denseOperand) := by
  rw [← dense_operand, ← dense_operand]
  exact dense_operation _ _ inked

end Expr

end Mintage.Solidity
