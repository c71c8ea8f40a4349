import Mintage.Solidity.Print

/-! The pieces of source that a program holds as they are written, and the texts of which its
document is made. -/
namespace Mintage.Solidity

open Layout

/-- Where a piece of source stands. -/
inductive Role where
  /-- A sign follows. -/
  | code
  /-- Another word may follow. -/
  | phrase
  | operator
  | banner
  /-- A comment to the end of the line. -/
  | line
  deriving DecidableEq, Repr

abbrev Piece := Role × String

mutual

def Expr.pieces : Expr → List Piece
  | .ident name => [(.code, name)]
  | .number digits => [(.code, digits)]
  | .string _ => []
  | .bool _ => []
  | .member object name => object.pieces ++ [(.code, name)]
  | .index object key => object.pieces ++ key.pieces
  | .call callee arguments => callee.pieces ++ Expr.allPieces arguments
  | .callNamed callee arguments => callee.pieces ++ Expr.namedPieces arguments
  | .assign target operator value => target.pieces ++ (.operator, operator) :: value.pieces
  | .binary left operator right => left.pieces ++ (.operator, operator) :: right.pieces

def Expr.allPieces : List Expr → List Piece
  | [] => []
  | e :: es => e.pieces ++ Expr.allPieces es

def Expr.namedPieces : List (String × Expr) → List Piece
  | [] => []
  | (name, e) :: es => (.code, name) :: e.pieces ++ Expr.namedPieces es

end

def Variable.pieces (v : Variable) : List Piece :=
  (v.type :: v.modifiers).map (Role.phrase, ·) ++ (.code, v.name) ::
    (v.value.map Expr.pieces).getD []

mutual

def Stmt.pieces : Stmt → List Piece
  | .expr e => e.pieces
  | .decl v => v.pieces
  | .ret none => []
  | .ret (some e) => e.pieces
  | .cond test body alternative =>
    test.pieces ++ Stmt.allPieces body ++ Stmt.alternativePieces alternative
  | .loop start test step body =>
    [start, test, step].map (Role.code, ·) ++ Stmt.allPieces body

def Stmt.allPieces : List Stmt → List Piece
  | [] => []
  | s :: ss => s.pieces ++ Stmt.allPieces ss

def Stmt.alternativePieces : Option (List Stmt) → List Piece
  | none => []
  | some ss => Stmt.allPieces ss

end

def Comment.pieces : Comment → List Piece
  | .banner title => [(.banner, title)]
  | .note text => (Text.lines text).map fun line => (.line, Text.trimRight line)

def Function.pieces (f : Function) : List Piece :=
  (f.name :: f.arguments).map (Role.code, ·) ++ f.modifiers.map (Role.phrase, ·) ++
    f.result.toList.map (Role.code, ·) ++ Stmt.allPieces f.body

def Constructor.pieces (c : Constructor) : List Piece :=
  c.arguments.map (Role.code, ·) ++ (c.base.map Expr.pieces).getD [] ++ Stmt.allPieces c.body

def Declaration.pieces : Declaration → List Piece
  | .field v => v.pieces
  | .function f => f.pieces
  | .constructor c => c.pieces
  | .record name members => (.code, name) :: members.flatMap Variable.pieces
  | .attach library type => [(.phrase, library), (.code, type)]

def Member.pieces : Member → List Piece
  | .declaration d => d.pieces
  | .comment c => c.pieces

def Contract.pieces (c : Contract) : List Piece :=
  (c.name :: c.bases).map (Role.code, ·) ++ c.body.flatMap Member.pieces

def Item.pieces : Item → List Piece
  | .contract c => c.pieces
  | .comment c => c.pieces

def Program.pieces (p : Program) : List Piece :=
  p.license.toList.map (Role.line, ·) ++ p.pragma.toList.map (Role.code, ·) ++
    p.body.flatMap Item.pieces

@[simp] theorem Expr.allPieces_eq_flatMap (es : List Expr) :
    Expr.allPieces es = es.flatMap Expr.pieces := by
  induction es with
  | nil => rfl
  | cons e es ih => rw [Expr.allPieces, List.flatMap_cons, ih]

@[simp] theorem Expr.namedPieces_eq_flatMap (es : List (String × Expr)) :
    Expr.namedPieces es = es.flatMap fun e => (.code, e.1) :: e.2.pieces := by
  induction es with
  | nil => rfl
  | cons e es ih => rw [Expr.namedPieces, List.flatMap_cons, ih]

@[simp] theorem Stmt.allPieces_eq_flatMap (ss : List Stmt) :
    Stmt.allPieces ss = ss.flatMap Stmt.pieces := by
  induction ss with
  | nil => rfl
  | cons s ss ih => rw [Stmt.allPieces, List.flatMap_cons, ih]

@[simp] theorem Expr.docs_eq_map (es : List Expr) : Expr.docs es = es.map Expr.doc := by
  induction es with
  | nil => rfl
  | cons e es ih => rw [Expr.docs, List.map_cons, ih]

@[simp] theorem Expr.namedDocs_eq_map (es : List (String × Expr)) :
    Expr.namedDocs es = es.map fun e => .concat [.text (e.1 ++ ": "), e.2.doc] := by
  induction es with
  | nil => rfl
  | cons e es ih => rw [Expr.namedDocs, List.map_cons, ih]

@[simp] theorem Stmt.docs_eq_map (ss : List Stmt) : Stmt.docs ss = ss.map Stmt.doc := by
  induction ss with
  | nil => rfl
  | cons s ss ih => rw [Stmt.docs, List.map_cons, ih]

end Mintage.Solidity

namespace Mintage.Layout

open Solidity

mutual

/-- All texts of a document have the property `Q`, and where it chooses it opens a brace. -/
def Doc.Made (Q : String → Prop) : Doc → Prop
  | .nil => True
  | .text s => Q s
  | .line _ => True
  | .concat parts => Doc.AllMade Q parts
  | .indent inner => inner.Made Q
  | .group _ inner => inner.Made Q
  | .ifBreak broken flat =>
    Doc.ifBreak broken flat = openBrace ∧ broken.Made Q ∧ flat.Made Q

def Doc.AllMade (Q : String → Prop) : List Doc → Prop
  | [] => True
  | part :: parts => part.Made Q ∧ Doc.AllMade Q parts

end

mutual

/-- All texts of a document have the property `Q`, where it chooses it opens a brace, and every
group has the mark that `grouped` gives to it. -/
def Doc.Built (Q : String → Prop) : Doc → Prop
  | .nil => True
  | .text s => Q s
  | .line _ => True
  | .concat parts => Doc.AllBuilt Q parts
  | .indent inner => inner.Built Q
  | .group broken inner => broken = inner.hasHardLine ∧ inner.Built Q
  | .ifBreak broken flat =>
    Doc.ifBreak broken flat = openBrace ∧ broken.Built Q ∧ flat.Built Q

def Doc.AllBuilt (Q : String → Prop) : List Doc → Prop
  | [] => True
  | part :: parts => part.Built Q ∧ Doc.AllBuilt Q parts

end

mutual

/-- What is built is made: the marks of the groups are asked for on top. -/
theorem Doc.Built.made {Q : String → Prop} : ∀ doc : Doc, doc.Built Q → doc.Made Q
  | .nil, _ => trivial
  | .text _, built => built
  | .line _, _ => trivial
  | .concat parts, built => Doc.AllBuilt.made parts built
  | .indent inner, built => Doc.Built.made inner built
  | .group _ inner, built => Doc.Built.made inner built.2
  | .ifBreak broken flat, built =>
    ⟨built.1, Doc.Built.made broken built.2.1, Doc.Built.made flat built.2.2⟩

theorem Doc.AllBuilt.made {Q : String → Prop} : ∀ parts : List Doc, Doc.AllBuilt Q parts →
    Doc.AllMade Q parts
  | [], _ => trivial
  | part :: parts, built => ⟨Doc.Built.made part built.1, Doc.AllBuilt.made parts built.2⟩

end

namespace Doc

variable {Q : String → Prop}

/-- A list of documents is built if each of them is, so lists may be taken item by item. -/
theorem allBuilt_iff {parts : List Doc} : Doc.AllBuilt Q parts ↔ ∀ part ∈ parts, part.Built Q := by
  induction parts with
  | nil => simp [Doc.AllBuilt]
  | cons part parts ih => simp [Doc.AllBuilt, ih]

@[simp] theorem built_text {s : String} : (text s).Built Q ↔ Q s := by rw [Doc.Built]

@[simp] theorem built_line {kind : Line} : (line kind).Built Q := by rw [Doc.Built]; trivial

@[simp] theorem built_concat {parts : List Doc} :
    (concat parts).Built Q ↔ ∀ part ∈ parts, part.Built Q := by
  rw [Doc.Built, allBuilt_iff]

@[simp] theorem built_indent {inner : Doc} : (indent inner).Built Q ↔ inner.Built Q := by
  rw [Doc.Built]

@[simp] theorem built_grouped {inner : Doc} : (grouped inner).Built Q ↔ inner.Built Q := by
  rw [grouped, Doc.Built]
  exact and_iff_right rfl

/-- Nothing but the separator comes in between. -/
theorem mem_of_mem_intersperse {α : Type} {a separator : α} {items : List α}
    (mem : a ∈ items.intersperse separator) : a = separator ∨ a ∈ items := by
  match items with
  | [] => cases mem
  | [_] => exact .inr mem
  | first :: second :: items =>
    rw [List.intersperse_cons_cons] at mem
    rcases List.mem_cons.1 mem with rfl | mem
    · exact .inr List.mem_cons_self
    rcases List.mem_cons.1 mem with rfl | mem
    · exact .inl rfl
    exact (mem_of_mem_intersperse mem).imp_right (List.mem_cons_of_mem _)

@[simp] theorem built_blankLine : blankLine.Built Q := by simp [blankLine, hardLine]

theorem built_join {separator : Doc} {docs : List Doc} (between : separator.Built Q)
    (all : ∀ doc ∈ docs, doc.Built Q) : (join separator docs).Built Q := by
  rw [join, built_concat]
  intro part mem
  rcases mem_of_mem_intersperse mem with rfl | mem
  · exact between
  · exact all part mem

end Doc

end Mintage.Layout

namespace Mintage.Solidity

open Layout

/-- A property of texts that holds of those without quotes and line feeds and of literals, and that
texts keep when they are put together. -/
structure Closed (Q : String → Prop) : Prop where
  plain : ∀ s : String, '"' ∉ s.toList ∧ '\n' ∉ s.toList → Q s
  quoted : ∀ s, Q (Text.quoted s)
  append : ∀ {s t}, Q s → Q t → Q (s ++ t)

namespace Closed

variable {Q : String → Prop}

/-- Words with spaces between them keep the property, since a space is a text without a quote. -/
theorem spaced (closed : Closed Q) {ws : List String} (all : ∀ w ∈ ws, Q w) :
    Q (Text.spaced ws) := by
  match ws with
  | [] => exact closed.plain _ (by decide)
  | [w] => simpa [Text.spaced] using all w List.mem_cons_self
  | v :: w :: ws =>
    rw [Text.spaced, String.intercalate_cons_cons]
    have later := Closed.spaced closed fun x mem => all x (List.mem_cons_of_mem v mem)
    exact closed.append (closed.append (all v List.mem_cons_self) (closed.plain " " (by decide)))
      later

theorem built_commas (closed : Closed Q) {items : List Doc} (all : ∀ item ∈ items, item.Built Q) :
    (commas items).Built Q := by
  refine Doc.built_join ?_ all
  simp [Doc.spaceLine, closed.plain "," (by decide)]

/-- A list in brackets brings no text of its own but the brackets and the commas. -/
theorem built_bracketed (closed : Closed Q) {opening closing : String} (opens : Q opening)
    (closes : Q closing) {items : List Doc} (all : ∀ item ∈ items, item.Built Q) :
    (bracketed opening closing items).Built Q := by
  unfold bracketed
  split
  · simpa using closed.append opens closes
  · simp [Doc.softLine, opens, closes, closed.built_commas all]

/-- Both ways to write an opening brace are plain, and it is the one choice in a document. -/
theorem built_openBrace (closed : Closed Q) : openBrace.Built Q := by
  rw [openBrace, Doc.Built]
  refine ⟨rfl, ?_, ?_⟩
  · simp [Doc.spaceLine, closed.plain "\x7b" (by decide)]
  · simp [closed.plain " \x7b" (by decide)]

theorem built_blockTail (closed : Closed Q) {separator : Doc} (between : separator.Built Q)
    {items : List Doc} (all : ∀ item ∈ items, item.Built Q) :
    (blockTail separator items).Built Q := by
  have brace := closed.plain "\x7d" (by decide)
  unfold blockTail
  split
  · simpa using brace
  · simp [Doc.hardLine, brace, Doc.built_join between all]

theorem built_block (closed : Closed Q) {items : List Doc} (all : ∀ item ∈ items, item.Built Q) :
    (block items).Built Q := by
  simp [block, closed.plain "\x7b" (by decide), closed.built_blockTail Doc.built_blankLine all]

theorem built_operation (closed : Closed Q) {left right : Doc} {operator : String}
    (builtLeft : left.Built Q) (isOperator : Q operator) (builtRight : right.Built Q) :
    (operation left operator right).Built Q := by
  have text := closed.append (closed.plain " " (by decide)) isOperator
  simp [operation, Doc.spaceLine, builtLeft, text, builtRight]

/-- Parentheses around an operand are plain texts, so it does not matter whether they are set. -/
theorem built_operand (closed : Closed Q) {doc : Doc} (built : doc.Built Q) (compound : Bool) :
    (operand compound doc).Built Q := by
  unfold operand
  split
  · simp [built, closed.plain "(" (by decide), closed.plain ")" (by decide)]
  · exact built

theorem built_memberDoc (closed : Closed Q) {object : Doc} (built : object.Built Q) {name : String}
    (named : Q name) (ofCall : Bool) : (memberDoc ofCall object name).Built Q := by
  have text := closed.append (closed.plain "." (by decide)) named
  unfold memberDoc
  split <;> simp [Doc.softLine, built, text]

theorem boolText (closed : Closed Q) (value : Bool) : Q (boolText value) := by
  cases value <;> exact closed.plain _ (by decide)

mutual

/-- All texts in an expression are its pieces, literals, or signs of the language. The induction is
on the expression, together with the two kinds of argument lists. -/
theorem built_expr (closed : Closed Q) : ∀ e : Expr, (∀ piece ∈ e.pieces, Q piece.2) → e.doc.Built Q
  | .ident name, all => by simpa [Expr.doc, Expr.pieces] using all
  | .number digits, all => by simpa [Expr.doc, Expr.pieces] using all
  | .string value, _ => by simpa [Expr.doc] using closed.quoted value
  | .bool value, _ => by simpa [Expr.doc] using closed.boolText value
  | .member object name, all => by
    simp only [Expr.pieces, List.forall_mem_append, List.forall_mem_singleton] at all
    exact closed.built_memberDoc (built_expr closed object all.1) all.2 _
  | .index object key, all => by
    simp only [Expr.pieces, List.forall_mem_append] at all
    simp [Expr.doc, built_expr closed object all.1, built_expr closed key all.2,
      closed.plain "[" (by decide), closed.plain "]" (by decide)]
  | .call callee arguments, all => by
    simp only [Expr.pieces, List.forall_mem_append] at all
    have inside := closed.built_bracketed (closed.plain "(" (by decide))
      (closed.plain ")" (by decide)) (built_exprs closed arguments all.2)
    simp only [Expr.doc, Doc.built_concat, List.forall_mem_cons, List.not_mem_nil]
    exact ⟨built_expr closed callee all.1, inside, nofun⟩
  | .callNamed callee arguments, all => by
    simp only [Expr.pieces, List.forall_mem_append] at all
    have inside := closed.built_bracketed (closed.plain "(\x7b" (by decide))
      (closed.plain "\x7d)" (by decide)) (built_namedExprs closed arguments all.2)
    simp only [Expr.doc, Doc.built_concat, List.forall_mem_cons, List.not_mem_nil]
    exact ⟨built_expr closed callee all.1, inside, nofun⟩
  | .assign target operator value, all => by
    simp only [Expr.pieces, List.forall_mem_append, List.forall_mem_cons] at all
    exact closed.built_operation (built_expr closed target all.1) all.2.1
      (built_expr closed value all.2.2)
  | .binary left operator right, all => by
    simp only [Expr.pieces, List.forall_mem_append, List.forall_mem_cons] at all
    exact closed.built_operation (closed.built_operand (built_expr closed left all.1) _) all.2.1
      (closed.built_operand (built_expr closed right all.2.2) _)

theorem built_exprs (closed : Closed Q) : ∀ es : List Expr,
    (∀ piece ∈ Expr.allPieces es, Q piece.2) →
    ∀ doc ∈ Expr.docs es, doc.Built Q
  | [], _ => nofun
  | e :: es, all => by
    simp only [Expr.allPieces, List.forall_mem_append] at all
    exact List.forall_mem_cons.2 ⟨built_expr closed e all.1, built_exprs closed es all.2⟩

theorem built_namedExprs (closed : Closed Q) : ∀ es : List (String × Expr),
    (∀ piece ∈ Expr.namedPieces es, Q piece.2) →
    ∀ doc ∈ Expr.namedDocs es, doc.Built Q
  | [], _ => nofun
  | (name, e) :: es, all => by
    simp only [Expr.namedPieces, List.cons_append, List.forall_mem_cons,
      List.forall_mem_append] at all
    have label := closed.append all.1 (closed.plain ": " (by decide))
    refine List.forall_mem_cons.2 ⟨?_, built_namedExprs closed es all.2.2⟩
    simp [label, built_expr closed e all.2.1]

end

/-- The words in front of a name may be many; they are put together to one text. -/
theorem built_variable (closed : Closed Q) {v : Variable} (all : ∀ piece ∈ v.pieces, Q piece.2) :
    v.doc.Built Q := by
  simp only [Variable.pieces, List.forall_mem_append, List.forall_mem_map,
    List.forall_mem_cons] at all
  obtain ⟨⟨typed, modified⟩, named, valued⟩ := all
  have words :
      Q (Text.spaced (v.type :: v.modifiers ++ if v.name.isEmpty then [] else [v.name])) := by
    refine closed.spaced (List.forall_mem_append.2 ⟨List.forall_mem_cons.2 ⟨typed, modified⟩, ?_⟩)
    split
    · exact nofun
    · simpa using named
  have semicolon := closed.plain ";" (by decide)
  unfold Variable.doc Variable.header
  cases value : v.value with
  | none => simpa [semicolon] using words
  | some e =>
    rw [value] at valued
    have sign := closed.plain " =" (by decide)
    simpa [semicolon, sign, Doc.spaceLine, closed.built_expr e valued] using words

mutual

/-- All texts in a statement are its pieces, literals, or words of the language. An alternative is a
list of statements, hence the induction on all three. -/
theorem built_stmt (closed : Closed Q) : ∀ s : Stmt, (∀ piece ∈ s.pieces, Q piece.2) → s.doc.Built Q
  | .expr e, all => by simp [Stmt.doc, closed.built_expr e all, closed.plain ";" (by decide)]
  | .decl v, all => closed.built_variable all
  | .ret none, _ => by simpa [Stmt.doc] using closed.plain "return;" (by decide)
  | .ret (some e), all => by
    simp [Stmt.doc, closed.built_expr e all, closed.plain "return " (by decide),
      closed.plain ";" (by decide)]
  | .cond test body alternative, all => by
    simp only [Stmt.pieces, List.forall_mem_append] at all
    obtain ⟨⟨inTest, inBody⟩, inAlternative⟩ := all
    have head : (Doc.grouped (.concat [.text "if (", test.doc, .text ")"])).Built Q := by
      simp [closed.built_expr test inTest, closed.plain "if (" (by decide),
        closed.plain ")" (by decide)]
    simp only [Stmt.doc, Doc.built_concat, List.forall_mem_append, List.forall_mem_cons,
      List.not_mem_nil]
    refine ⟨⟨head, ?_, closed.built_block (built_stmts closed body inBody), nofun⟩,
      built_stmtAlternative closed alternative inAlternative⟩
    simpa using closed.plain " " (by decide)
  | .loop start test step body, all => by
    simp only [Stmt.pieces, List.forall_mem_append, List.forall_mem_map, List.forall_mem_cons,
      List.not_mem_nil] at all
    obtain ⟨⟨starts, tests, steps, -⟩, inBody⟩ := all
    have semicolon := closed.plain "; " (by decide)
    have head : Q ("for (" ++ start ++ "; " ++ test ++ "; " ++ step ++ ") ") := by
      refine closed.append (closed.append (closed.append (closed.append (closed.append
        (closed.append (closed.plain "for (" (by decide)) starts) semicolon) tests) semicolon)
        steps) (closed.plain ") " (by decide))
    simp only [Stmt.doc, Doc.built_concat, List.forall_mem_cons, List.not_mem_nil]
    exact ⟨Doc.built_text.2 head, closed.built_block (built_stmts closed body inBody), nofun⟩

theorem built_stmts (closed : Closed Q) : ∀ ss : List Stmt,
    (∀ piece ∈ Stmt.allPieces ss, Q piece.2) →
    ∀ doc ∈ Stmt.docs ss, doc.Built Q
  | [], _ => nofun
  | s :: ss, all => by
    simp only [Stmt.allPieces, List.forall_mem_append] at all
    exact List.forall_mem_cons.2 ⟨built_stmt closed s all.1, built_stmts closed ss all.2⟩

/-- The words that lead to an alternative are plain, so only the statements behind them count. -/
theorem built_stmtAlternative (closed : Closed Q) : ∀ alternative : Option (List Stmt),
    (∀ piece ∈ Stmt.alternativePieces alternative, Q piece.2) →
    ∀ doc ∈ Stmt.alternativeDocs alternative, doc.Built Q
  | none, _ => nofun
  | some [], _ => by
    have noStmt : (block []).Built Q := closed.built_block nofun
    simp [Stmt.alternativeDocs, closed.plain " else " (by decide), noStmt]
  | some (s :: ss), all => by
    simp only [Stmt.alternativePieces, Stmt.allPieces, List.forall_mem_append] at all
    have first := built_stmt closed s all.1
    have several : (block (s.doc :: Stmt.docs ss)).Built Q :=
      closed.built_block (List.forall_mem_cons.2 ⟨first, built_stmts closed ss all.2⟩)
    simp only [Stmt.alternativeDocs, List.forall_mem_cons, List.not_mem_nil, Doc.built_text]
    refine ⟨closed.plain " else " (by decide), ?_, nofun⟩
    split
    · exact first
    · exact several

end

theorem built_body (closed : Closed Q) {ss : List Stmt}
    (all : ∀ piece ∈ Stmt.allPieces ss, Q piece.2) :
    (blockTail .blankLine (Stmt.docs ss)).Built Q :=
  closed.built_blockTail Doc.built_blankLine (closed.built_stmts ss all)

/-- Each line of a comment is one text, without the blanks at its end. -/
theorem built_comment (closed : Closed Q) {c : Comment} (all : ∀ piece ∈ c.pieces, Q piece.2) :
    c.doc.Built Q := by
  cases c with
  | banner title =>
    have titled : Q title := by simpa [Comment.pieces] using all
    have opened := closed.append (closed.plain "/** " (by decide)) titled
    exact Doc.built_text.2 (closed.append opened (closed.plain " **/" (by decide)))
  | note text =>
    refine Doc.built_join (by simp [Doc.hardLine]) fun doc mem => ?_
    obtain ⟨line, listed, rfl⟩ := List.mem_map.1 mem
    have kept : Q (Text.trimRight line) := all (.line, _) (List.mem_map.2 ⟨line, listed, rfl⟩)
    refine Doc.built_text.2 ?_
    split
    · exact closed.plain "//" (by decide)
    · exact closed.append (closed.plain "// " (by decide)) kept

theorem built_argumentList (closed : Closed Q) {arguments : List String}
    (all : ∀ argument ∈ arguments, Q argument) :
    (argumentList arguments).Built Q := by
  refine closed.built_bracketed (closed.plain "(" (by decide)) (closed.plain ")" (by decide)) ?_
  simpa using all

/-- The head of a function is its name, its arguments and its modifiers, each of which is a
piece. -/
theorem built_function (closed : Closed Q) {f : Function} (all : ∀ piece ∈ f.pieces, Q piece.2) :
    f.doc.Built Q := by
  simp only [Function.pieces, List.forall_mem_append, List.forall_mem_map,
    List.forall_mem_cons] at all
  obtain ⟨⟨⟨⟨named, given⟩, modified⟩, returned⟩, inBody⟩ := all
  have title := closed.append (closed.plain "function " (by decide)) named
  have trailer : ∀ doc ∈ f.trailer, doc.Built Q := by
    refine List.forall_mem_append.2 ⟨fun doc mem => ?_, ?_⟩
    · obtain ⟨modifier, listed, rfl⟩ := List.mem_map.1 mem
      simpa [Doc.spaceLine] using modified modifier listed
    · cases result : f.result with
      | none => exact nofun
      | some result' =>
        have own : Q result' := returned result' (by simp [result])
        have text := closed.append (closed.append (closed.plain "returns (" (by decide)) own)
          (closed.plain ")" (by decide))
        simpa [Doc.spaceLine] using text
  simp only [Function.doc, Doc.built_concat, Doc.built_grouped, Doc.built_indent, Doc.built_text,
    List.forall_mem_cons, List.not_mem_nil]
  exact ⟨⟨title, closed.built_argumentList given, trailer, closed.built_openBrace, nofun⟩,
    closed.built_body inBody, nofun⟩

theorem built_constructor (closed : Closed Q) {c : Constructor}
    (all : ∀ piece ∈ c.pieces, Q piece.2) : c.doc.Built Q := by
  simp only [Constructor.pieces, List.forall_mem_append, List.forall_mem_map] at all
  obtain ⟨⟨given, based⟩, inBody⟩ := all
  have word := closed.plain "constructor" (by decide)
  unfold Constructor.doc
  cases base : c.base with
  | none =>
    simp only [Doc.built_concat, Doc.built_grouped, Doc.built_text, List.forall_mem_cons,
      List.not_mem_nil]
    exact ⟨⟨word, closed.built_argumentList given, trivial, closed.built_openBrace, nofun⟩,
      closed.built_body inBody, nofun⟩
  | some e =>
    rw [base] at based
    have call : (Doc.indent (.concat [.spaceLine, e.doc])).Built Q := by
      simp [Doc.spaceLine, closed.built_expr e based]
    simp only [Doc.built_concat, Doc.built_grouped, Doc.built_text, List.forall_mem_cons,
      List.not_mem_nil]
    exact ⟨⟨word, closed.built_argumentList given, call, closed.built_openBrace, nofun⟩,
      closed.built_body inBody, nofun⟩

theorem built_declaration (closed : Closed Q) {d : Declaration}
    (all : ∀ piece ∈ d.pieces, Q piece.2) : d.doc.Built Q := by
  cases d with
  | field v => exact closed.built_variable all
  | function f => exact closed.built_function all
  | constructor c => exact closed.built_constructor all
  | record name members =>
    simp only [Declaration.pieces, List.forall_mem_cons] at all
    have head := closed.append (closed.append (closed.plain "struct " (by decide)) all.1)
      (closed.plain " \x7b" (by decide))
    have inside : ∀ doc ∈ members.map Variable.doc, doc.Built Q := by
      intro doc mem
      obtain ⟨v, listed, rfl⟩ := List.mem_map.1 mem
      exact closed.built_variable fun piece own => all.2 piece (List.mem_flatMap.2 ⟨v, listed, own⟩)
    simp only [Declaration.doc, Doc.built_concat, Doc.built_text, List.forall_mem_cons,
      List.not_mem_nil]
    exact ⟨head, closed.built_blockTail Doc.built_line inside, nofun⟩
  | attach library type =>
    simp only [Declaration.pieces, List.forall_mem_cons, List.not_mem_nil] at all
    exact Doc.built_text.2 (closed.append (closed.append (closed.append (closed.append
      (closed.plain "using " (by decide)) all.1) (closed.plain " for " (by decide))) all.2.1)
      (closed.plain ";" (by decide)))

theorem built_member (closed : Closed Q) {m : Member} (all : ∀ piece ∈ m.pieces, Q piece.2) :
    m.doc.Built Q := by
  cases m with
  | declaration d => exact closed.built_declaration all
  | comment c => exact closed.built_comment all

/-- The bases of a contract are pieces like its name. -/
theorem built_contract (closed : Closed Q) {c : Contract} (all : ∀ piece ∈ c.pieces, Q piece.2) :
    c.doc.Built Q := by
  simp only [Contract.pieces, List.forall_mem_append, List.forall_mem_map,
    List.forall_mem_cons] at all
  obtain ⟨⟨named, based⟩, inBody⟩ := all
  have title := closed.append (closed.plain "contract " (by decide)) named
  have header : c.header.Built Q := by
    unfold Contract.header
    simp only [Doc.built_grouped, Doc.built_concat, List.forall_mem_append, List.forall_mem_cons,
      List.not_mem_nil]
    refine ⟨⟨⟨Doc.built_text.2 title, nofun⟩, ?_⟩, closed.built_openBrace, nofun⟩
    split
    · exact nofun
    · have listed : (commas (c.bases.map .text)).Built Q :=
        closed.built_commas (by simpa using based)
      simp [Doc.spaceLine, closed.plain " is" (by decide), listed]
  have inside : ∀ doc ∈ c.body.map Member.doc, doc.Built Q := by
    intro doc mem
    obtain ⟨m, listed, rfl⟩ := List.mem_map.1 mem
    exact closed.built_member fun piece own => inBody piece (List.mem_flatMap.2 ⟨m, listed, own⟩)
  simp only [Contract.doc, Doc.built_concat, List.forall_mem_cons, List.not_mem_nil]
  exact ⟨header, closed.built_blockTail Doc.built_blankLine inside, nofun⟩

theorem built_item (closed : Closed Q) {i : Item} (all : ∀ piece ∈ i.pieces, Q piece.2) :
    i.doc.Built Q := by
  cases i with
  | contract c => exact closed.built_contract all
  | comment c => exact closed.built_comment all

/-- What holds of every piece of a program holds of every text in its document, if it holds of
literals and plain texts, too. -/
theorem built_program (closed : Closed Q) {p : Program} (all : ∀ piece ∈ p.pieces, Q piece.2) :
    p.doc.Built Q := by
  simp only [Program.pieces, List.forall_mem_append, List.forall_mem_map] at all
  obtain ⟨⟨licensed, versioned⟩, inBody⟩ := all
  have sections : ∀ part ∈ p.sections, part.1.Built Q ∧ ∀ doc ∈ part.2, doc.Built Q := by
    simp only [Program.sections, List.forall_mem_cons, List.forall_mem_append, List.not_mem_nil,
      Option.mem_toList]
    refine ⟨⟨Doc.built_line, ?_, ?_⟩, ⟨Doc.built_line, ?_⟩, ⟨Doc.built_blankLine, ?_⟩, nofun⟩
    · intro doc mem
      obtain ⟨license, own, rfl⟩ := Option.map_eq_some_iff.1 mem
      exact Doc.built_text.2 (closed.append (closed.plain _ (by decide))
        (licensed license (by simp [own])))
    · intro doc mem
      obtain ⟨version, own, rfl⟩ := Option.map_eq_some_iff.1 mem
      exact Doc.built_text.2 (closed.append (closed.append (closed.plain _ (by decide))
        (versioned version (by simp [own]))) (closed.plain ";" (by decide)))
    · intro doc mem
      obtain ⟨path, -, rfl⟩ := List.mem_map.1 mem
      exact Doc.built_text.2 (closed.append (closed.append (closed.plain _ (by decide))
        (closed.quoted path)) (closed.plain ";" (by decide)))
    · intro doc mem
      obtain ⟨i, listed, rfl⟩ := List.mem_map.1 mem
      exact closed.built_item fun piece own => inBody piece (List.mem_flatMap.2 ⟨i, listed, own⟩)
  simp only [Program.doc, Doc.built_concat, List.forall_mem_cons, List.not_mem_nil]
  refine ⟨Doc.built_join Doc.built_blankLine fun doc mem => ?_, Doc.built_line, nofun⟩
  obtain ⟨part, kept, rfl⟩ := List.mem_map.1 mem
  obtain ⟨between, all⟩ := sections part (List.mem_filter.1 kept).1
  exact Doc.built_join between all

end Closed

end Mintage.Solidity
