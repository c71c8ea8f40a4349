import Mintage.Proofs.Layout.Short
import Mintage.Proofs.Solidity.Dense
import Mintage.Proofs.Solidity.Regular

/-! Where the printed text of an expression shows how its operations are grouped. Only the operands
of a binary operation are put in parentheses, so that an operation that is accessed or called, and
the sides of an assignment, are printed without them. -/
namespace Mintage.Layout.Doc

theorem calm_join {inGroup : Bool} {separator : Doc} {docs : List Doc}
    (ofSeparator : separator.Calm inGroup) (ofDocs : ∀ doc ∈ docs, doc.Calm inGroup) :
    (join separator docs).Calm inGroup := by
  refine calm_concat.2 fun part mem => ?_
  rcases mem_of_mem_intersperse mem with rfl | mem
  · exact ofSeparator
  · exact ofDocs part mem

theorem calm_pair {inGroup : Bool} {first second : Doc} (ofFirst : first.Calm inGroup)
    (ofSecond : second.Calm inGroup) : (concat [first, second]).Calm inGroup := by
  simp [ofFirst, ofSecond]

end Mintage.Layout.Doc

namespace Mintage.Solidity

open Layout Text

/-- The signs that stand between two operands. -/
def operators : List String :=
  ["+", "-", "*", "/", "%", "**", "<<", ">>", ">>>", "&", "|", "^", "&&", "||", "==", "!=", "<",
    "<=", ">", ">=", "=", "+=", "-=", "*=", "/=", "%=", "<<=", ">>=", ">>>=", "&=", "|=", "^="]

/-- Operators are known, other pieces are made of the characters of names and numbers. -/
def isPlainPiece (piece : Piece) : Bool :=
  match piece.1 with
  | .operator => operators.contains piece.2
  | _ => piece.2.toList.all continuesName

/-- The texts of a plain expression hold neither gaps nor quotes. -/
theorem isInked_of_isPlainPiece {piece : Piece} (plain : isPlainPiece piece = true) :
    isInked piece.2 = true := by
  have signs : ∀ operator ∈ operators, isInked operator = true := by decide
  unfold isPlainPiece at plain
  split at plain
  · exact signs _ (List.contains_iff_mem.1 plain)
  · exact isInked_of_all plain

theorem isInked_of_mem_operators {operator : String} (known : operator ∈ operators) :
    isInked operator = true := by
  have plain : isPlainPiece (.operator, operator) = true := List.contains_iff_mem.2 known
  exact isInked_of_isPlainPiece plain

/-- No operator begins with a parenthesis, so a parenthesis in its place can be told from it. -/
theorem head?_ne_of_mem_operators {operator : String} (known : operator ∈ operators)
    (more : List Char) : (operator.toList ++ more).head? ≠ some '(' := by
  have signs : ∀ operator ∈ operators,
      operator.toList.head?.isSome = true ∧ operator.toList.head? ≠ some '(' := by decide
  obtain ⟨filled, other⟩ := signs operator known
  obtain ⟨c, first⟩ := Option.isSome_iff_exists.1 filled
  rwa [List.head?_append, first, Option.some_or, ← first]

theorem notMem_of_isInked {s : String} (inked : isInked s = true) : '\n' ∉ s.toList := by
  intro feed
  have solid := List.all_eq_true.1 inked _ feed
  cases solid

variable {inGroup : Bool}

theorem calm_bracketed (opening closing : String) {items : List Doc}
    (calm : ∀ item ∈ items, item.Calm true) :
    (bracketed opening closing items).Calm inGroup := by
  have listed : (commas items).Calm true :=
    Doc.calm_join (by simp [Doc.spaceLine]) calm
  unfold bracketed
  split
  · exact trivial
  · simp [Doc.softLine, listed]

theorem calm_operation {left right : Doc} (ofLeft : left.Calm true) (ofRight : right.Calm true)
    (operator : String) : (operation left operator right).Calm inGroup := by
  simp [operation, Doc.spaceLine, ofLeft, ofRight]

theorem calm_operand {doc : Doc} (calm : doc.Calm inGroup) (compound : Bool) :
    (operand compound doc).Calm inGroup := by
  unfold operand
  split
  · simp [calm]
  · exact calm

theorem calm_memberDoc {object : Doc} (calm : object.Calm false) (ofCall : Bool) (name : String) :
    (memberDoc ofCall object name).Calm false := by
  unfold memberDoc
  split
  · simp [Doc.softLine, Doc.Calm.inGroup object calm]
  · simp [calm]

namespace Expr

mutual

/-- No expression forces a line break, so one that is short enough is printed on one line. -/
theorem calm_doc : ∀ e : Expr, e.doc.Calm false
  | ident _ => trivial
  | number _ => trivial
  | string _ => trivial
  | bool _ => trivial
  | member object name => calm_memberDoc (calm_doc object) _ name
  | index object key => by simp [doc, calm_doc object, calm_doc key]
  | call callee arguments =>
    Doc.calm_pair (calm_doc callee) (calm_bracketed _ _ (calm_docs arguments))
  | callNamed callee arguments =>
    Doc.calm_pair (calm_doc callee) (calm_bracketed _ _ (calm_namedDocs arguments))
  | assign target operator value =>
    calm_operation (Doc.Calm.inGroup _ (calm_doc target)) (Doc.Calm.inGroup _ (calm_doc value))
      operator
  | binary left operator right =>
    calm_operation (calm_operand (Doc.Calm.inGroup _ (calm_doc left)) _)
      (calm_operand (Doc.Calm.inGroup _ (calm_doc right)) _) operator

theorem calm_docs : ∀ es : List Expr, ∀ doc ∈ docs es, doc.Calm true
  | [] => nofun
  | e :: es => List.forall_mem_cons.2 ⟨Doc.Calm.inGroup _ (calm_doc e), calm_docs es⟩

theorem calm_namedDocs : ∀ es : List (String × Expr), ∀ doc ∈ namedDocs es, doc.Calm true
  | [] => nofun
  | (_, e) :: es =>
    List.forall_mem_cons.2 ⟨by simp [Doc.Calm.inGroup _ (calm_doc e)], calm_namedDocs es⟩

end

/-- The pieces of an expression are known operators and texts made of the characters of names and
numbers. -/
def IsPlain (e : Expr) : Prop := ∀ piece ∈ e.pieces, isPlainPiece piece = true

instance (e : Expr) : Decidable e.IsPlain :=
  inferInstanceAs (Decidable (∀ piece ∈ e.pieces, isPlainPiece piece = true))

variable {e f : Expr}

theorem IsPlain.known {operator : String} (plain : e.IsPlain)
    (mem : (Role.operator, operator) ∈ e.pieces) : operator ∈ operators :=
  List.contains_iff_mem.1 (plain _ mem)

theorem IsPlain.dense_render (plain : e.IsPlain) (width : Nat) :
    Text.dense (e.doc.render width).toList = e.dense :=
  Expr.dense_render (fun piece mem => isInked_of_isPlainPiece (plain piece mem)) width

/-- What fits on the page is printed on one line. -/
theorem IsPlain.render_of_short (plain : e.IsPlain) {width : Nat}
    (short : e.doc.flatText.length ≤ width) : e.doc.render width = e.doc.flatText := by
  have regular : e.doc.Regular := Node.regular (.expr e) fun piece mem =>
    notMem_of_isInked (isInked_of_isPlainPiece (plain piece mem))
  exact Doc.render_of_short regular e.calm_doc short

/-- What is left of the page is left of the text on one line, too. -/
theorem IsPlain.dense_flatText (plain : e.IsPlain) :
    Text.dense e.doc.flatText.toList = e.dense := by
  rw [← plain.render_of_short (Nat.le_refl _)]
  exact plain.dense_render _

end Expr

/-- What may stand behind an expression: an access to a member or an entry, or a call. -/
inductive Access where
  | member (name : String)
  | index (key : Expr)
  | call (arguments : List Expr)
  | callNamed (arguments : List (String × Expr))

namespace Access

/-- The access to an expression. -/
def of : Access → Expr → Expr
  | member name, e => .member e name
  | index key, e => .index e key
  | call arguments, e => .call e arguments
  | callNamed arguments, e => .callNamed e arguments

def pieces : Access → List Piece
  | member name => [(.code, name)]
  | index key => key.pieces
  | call arguments => Expr.allPieces arguments
  | callNamed arguments => Expr.namedPieces arguments

/-- What is printed behind the expression. -/
def doc : Access → Doc
  | member name => .text ("." ++ name)
  | index key => .concat [.text "[", key.doc, .text "]"]
  | call arguments => bracketed "(" ")" (Expr.docs arguments)
  | callNamed arguments => bracketed "(\x7b" "\x7d)" (Expr.namedDocs arguments)

theorem pieces_of (access : Access) (e : Expr) :
    (access.of e).pieces = e.pieces ++ access.pieces := by
  cases access <;> rfl

theorem isCompound_of (access : Access) (e : Expr) : (access.of e).isCompound = false := by
  cases access <;> rfl

/-- No parentheses are put around the expression, whatever it is. -/
theorem dense_of (access : Access) (e : Expr) :
    (access.of e).dense = e.dense ++ access.doc.dense := by
  have softLine : Doc.softLine.dense = [] := rfl
  cases access with
  | member name =>
    change (memberDoc e.isCall e.doc name).dense = e.doc.dense ++ (Doc.text ("." ++ name)).dense
    unfold memberDoc
    split <;> simp [softLine]
  | index key => simp [of, doc, Expr.dense, Expr.doc]
  | call arguments => simp [of, doc, Expr.dense, Expr.doc]
  | callNamed arguments => simp [of, doc, Expr.dense, Expr.doc]

theorem flatText_of (access : Access) (e : Expr) :
    (access.of e).doc.flatText = e.doc.flatText ++ access.doc.flatText := by
  cases access with
  | member name =>
    change (memberDoc e.isCall e.doc name).flatText = e.doc.flatText ++ ("." ++ name)
    unfold memberDoc
    split <;> simp [Doc.grouped, Doc.softLine, Doc.flatText, Doc.flatTextAll]
  | index key => simp [of, doc, Expr.doc, Doc.flatText, Doc.flatTextAll]
  | call arguments => simp [of, doc, Expr.doc, Doc.flatText, Doc.flatTextAll]
  | callNamed arguments => simp [of, doc, Expr.doc, Doc.flatText, Doc.flatTextAll]

end Access

/-- On one line, an operator has a space on either side. -/
theorem flatText_operation (left right : Doc) (operator : String) :
    (operation left operator right).flatText =
      left.flatText ++ (" " ++ operator ++ " " ++ right.flatText) := by
  simp [operation, Doc.grouped, Doc.spaceLine, Doc.flatText, Doc.flatTextAll, String.append_assoc]

namespace Expr

/-- Expressions that differ in nothing but the grouping of their operations. The mark tells whether
the printed parentheses show the difference. -/
inductive Regrouped : Bool → Expr → Expr → Prop where
  | accessBinary (access : Access) (a : Expr) (operator : String) (b : Expr) :
      Regrouped b.isCompound (access.of (.binary a operator b)) (.binary a operator (access.of b))
  | accessAssign (access : Access) (a : Expr) (operator : String) (b : Expr) :
      Regrouped false (access.of (.assign a operator b)) (.assign a operator (access.of b))
  | binary (a : Expr) (first : String) (b : Expr) (second : String) (c : Expr) :
      Regrouped true (.binary (.binary a first b) second c) (.binary a first (.binary b second c))
  | assign (a : Expr) (first : String) (b : Expr) (second : String) (c : Expr) :
      Regrouped false (.assign (.assign a first b) second c) (.assign a first (.assign b second c))

variable {shown : Bool} {e f : Expr}

namespace Regrouped

theorem ne (regrouped : Regrouped shown e f) : e ≠ f := by
  cases regrouped with
  | accessBinary access a operator b => cases access <;> nofun
  | accessAssign access a operator b => cases access <;> nofun
  | binary a first b second c =>
    intro same
    have size := congrArg sizeOf (binary.inj same).1
    rw [binary.sizeOf_spec] at size
    omega
  | assign a first b second c =>
    intro same
    have size := congrArg sizeOf (assign.inj same).1
    rw [assign.sizeOf_spec] at size
    omega

/-- Regrouping moves operators and operands around but keeps their order. -/
theorem pieces_eq (regrouped : Regrouped shown e f) : e.pieces = f.pieces := by
  cases regrouped with
  | accessBinary => simp [Access.pieces_of, pieces]
  | accessAssign => simp [Access.pieces_of, pieces]
  | binary => simp [pieces]
  | assign => simp [pieces]

theorem plain (regrouped : Regrouped shown e f) (plain : e.IsPlain) : f.IsPlain := by
  rw [IsPlain, ← regrouped.pieces_eq]
  exact plain

/-- Without parentheses both are the same on one line. -/
theorem flatText_eq (regrouped : Regrouped shown e f) (hidden : shown = false) :
    e.doc.flatText = f.doc.flatText := by
  cases regrouped with
  | accessBinary access a operator b =>
    rw [Access.flatText_of]
    simp [doc, flatText_operation, operand, hidden, Access.isCompound_of, Access.flatText_of,
      String.append_assoc]
  | accessAssign access a operator b =>
    rw [Access.flatText_of]
    simp [doc, flatText_operation, Access.flatText_of, String.append_assoc]
  | binary => cases hidden
  | assign => simp [doc, flatText_operation, String.append_assoc]

end Regrouped

/-- A sign that could be moved to the front of a text stands behind it, too. -/
theorem head?_of_append_eq_cons {α : Type} {x s t : List α} {c : α}
    (same : x ++ s = c :: (x ++ t)) : s.head? = some c := by
  induction x with
  | nil =>
    rw [List.nil_append, List.nil_append] at same
    rw [same, List.head?_cons]
  | cons d x ih =>
    obtain ⟨rfl, rest⟩ := List.cons.inj same
    exact ih rest

/-- The parentheses around the second operand are missing where it is accessed alone. -/
theorem dense_access_ne (access : Access) (a : Expr) {b : Expr} (compound : b.isCompound = true)
    {operator : String} (known : operator ∈ operators) :
    (access.of (binary a operator b)).dense ≠ (binary a operator (access.of b)).dense := by
  have inked := isInked_of_mem_operators known
  rw [Access.dense_of, dense_binary a b inked, dense_binary a (access.of b) inked,
    denseOperand.eq_def b, if_pos compound, denseOperand.eq_def (access.of b), Access.isCompound_of,
    Access.dense_of]
  intro same
  have length := congrArg List.length same
  simp only [List.length_append, List.length_cons, List.length_nil, Bool.false_eq_true,
    if_false] at length
  omega

/-- Only one of them begins with the parenthesis in front of the first operand. -/
theorem dense_binary_ne (a b c : Expr) {first second : String} (known : first ∈ operators)
    (known' : second ∈ operators) :
    (binary (binary a first b) second c).dense ≠ (binary a first (binary b second c)).dense := by
  have inked := isInked_of_mem_operators known
  have left : (binary a first b).denseOperand =
      '(' :: (a.denseOperand ++ (first.toList ++ b.denseOperand) ++ [')']) := by
    rw [denseOperand, isCompound, if_pos rfl, dense_binary a b inked]
  rw [dense_binary _ c (isInked_of_mem_operators known'), left,
    dense_binary a (binary b second c) inked]
  intro same
  rw [List.cons_append, List.append_assoc, List.append_assoc] at same
  exact head?_ne_of_mem_operators known _ (head?_of_append_eq_cons same.symm)

/-- Printed parentheses are seen even after all gaps are deleted. -/
theorem Regrouped.dense_ne (regrouped : Regrouped true e f) (plain : e.IsPlain) :
    e.dense ≠ f.dense := by
  generalize same : true = shown at regrouped
  cases regrouped with
  | accessBinary access a operator b =>
    exact dense_access_ne access a same.symm (plain.known (by simp [Access.pieces_of, pieces]))
  | accessAssign => cases same
  | binary a first b second c =>
    exact dense_binary_ne a b c (plain.known (by simp [pieces])) (plain.known (by simp [pieces]))
  | assign => cases same

/-- Two groupings of the same operations are printed alike, but for spaces and line feeds, exactly
if no parentheses show the difference: an operation is printed without them where it is accessed or
called, and at the sides of an assignment. If there is room for one line, the page is the same. -/
theorem print_regrouped (regrouped : Regrouped shown e f) (plain : e.IsPlain) :
    e ≠ f ∧
    (Text.dense e.print.toList = Text.dense f.print.toList ↔ shown = false) ∧
    (e.doc.flatText.length ≤ pageWidth → (e.print = f.print ↔ shown = false)) := by
  have plain' := regrouped.plain plain
  have alike : Text.dense e.print.toList = Text.dense f.print.toList ↔ shown = false := by
    have first : Text.dense e.print.toList = e.dense := plain.dense_render pageWidth
    have second : Text.dense f.print.toList = f.dense := plain'.dense_render pageWidth
    rw [first, second]
    cases shown with
    | true => exact iff_of_false (regrouped.dense_ne plain) nofun
    | false =>
      refine iff_of_true ?_ rfl
      rw [← plain.dense_flatText, regrouped.flatText_eq rfl, plain'.dense_flatText]
  refine ⟨regrouped.ne, alike, fun short => ⟨fun same => alike.1 (by rw [same]), fun hidden => ?_⟩⟩
  have same := regrouped.flatText_eq hidden
  have first : e.print = e.doc.flatText := plain.render_of_short short
  have second : f.print = f.doc.flatText := plain'.render_of_short (same ▸ short)
  rw [first, second, same]

/-- `a + b`, of which a member is read. -/
def sampleSum : Expr := .member (.binary (.ident "a") "+" (.ident "b")) "c"

theorem print_regrouped_sampleSum :
    sampleSum ≠ .binary (.ident "a") "+" (.member (.ident "b") "c") ∧
      sampleSum.print = "a + b.c" ∧
      sampleSum.print = (binary (.ident "a") "+" (.member (.ident "b") "c")).print := by
  obtain ⟨differ, -, alike⟩ :=
    print_regrouped (.accessBinary (.member "c") (.ident "a") "+" (.ident "b")) (by decide)
  exact ⟨differ, by decide, (alike (by decide)).2 rfl⟩

/-- Accesses of every kind, and assignments one in the other. -/
theorem print_sampleSum_alike :
    (∀ access ∈ [Access.member "c", .index (.ident "c"), .call [.number "1"],
        .callNamed [("c", .number "1")]],
      (access.of (.binary (.ident "a") "+" (.ident "b"))).print =
          (binary (.ident "a") "+" (access.of (.ident "b"))).print ∧
        (access.of (.assign (.ident "a") "+=" (.ident "b"))).print =
          (assign (.ident "a") "+=" (access.of (.ident "b"))).print) ∧
    (set (.set (.ident "a") (.ident "b")) (.ident "c")).print = "a = b = c" ∧
    (set (.ident "a") (.set (.ident "b") (.ident "c"))).print = "a = b = c" := by
  decide

end Expr

end Mintage.Solidity
