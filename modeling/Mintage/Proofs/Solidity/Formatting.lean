import Mintage.Proofs.Solidity.Gathering
import Mintage.Proofs.Solidity.Neat
import Mintage.Proofs.Solidity.Writing

/-! The pages of neat programs are formatted, whatever the width. -/
namespace Mintage.Layout.Doc

open Solidity Text

/-- A literal has a quote at either end and no line feed inside, so it may stand anywhere. -/
theorem moves_quoted (s : String) : (text (quoted s)).Moves .gap .ink := by
  rintro indent _ rfl
  have seen : marks (quoted s).toList = ('"' :: marks (Quoted.encode s.toList)) ++ ['"'] := by
    have quote : marks ['"'] = ['"'] := by decide
    rw [quoted, String.toList_ofList, ← List.singleton_append, marks_append, marks_append, quote]
    rfl
  have last : (marks (quoted s).toList).getLast? = some '"' := by rw [seen, List.getLast?_concat]
  have after : Pen.gap.after (quoted s).toList = .ink := by
    rw [Pen.after, last]
    rfl
  refine ⟨.ink, ?_, le_refl _⟩
  simp [Pen.step, Pen.text, notMem_quoted, after, seen]

/-- A text that may be blank may stand where there is ink in the line. -/
theorem moves_short {a : Pen} (above : a ≠ .gap) (le : a ≤ .brace) :
    ∀ {e : Expr}, e.isShort = true → e.doc.Moves a a
  | .ident _, short => moves_level (isLevel_iff.1 short) above le
  | .number _, short => moves_level (isLevel_iff.1 short) above le

/-- In front of a parenthesis there may be nothing. -/
theorem moves_callee {e : Expr} (silent : e.isSilent = true) : e.doc.Moves .gap .gap := by
  cases e with
  | ident name =>
    rw [Expr.isSilent, String.isEmpty_iff] at silent
    rw [silent]
    exact moves_text (by decide)
  | _ => cases silent

theorem moves_arguments {items : List Doc} (all : ∀ doc ∈ items, doc.Moves .opened .brace) :
    (bracketed "(" ")" items).Moves .gap .ink :=
  moves_bracketed (moves_text (by decide)) (moves_text (by decide)) all

theorem moves_namedArguments {items : List Doc} (all : ∀ doc ∈ items, doc.Moves .opened .brace) :
    (bracketed "(\x7b" "\x7d)" items).Moves .gap .ink :=
  moves_bracketed (moves_text (by decide)) (moves_text (by decide)) all

mutual

/-- An expression may begin a line below a gap, and it leaves ink behind. The induction takes its
lists of arguments along. -/
theorem moves_expr : ∀ e : Expr, e.isNeat = true → e.doc.Moves .gap .brace
  | .ident name, neat => moves_text neat
  | .number digits, neat => moves_text neat
  | .string value, _ => (moves_quoted value).weaken (le_refl _) (by decide)
  | .bool value, _ => by
    cases value <;> exact moves_text (by decide)
  | .member object name, neat => by
    rw [Expr.isNeat, Bool.and_eq_true, isLevel_iff] at neat
    exact moves_memberDoc (moves_expr object neat.1) neat.2 _
  | .index object key, neat => by
    rw [Expr.isNeat, Bool.and_eq_true, Bool.or_eq_true] at neat
    have inside : key.doc.Moves .brace .brace :=
      neat.2.elim (moves_short (by decide) (by decide))
        fun neat => (moves_expr key neat).weaken (by decide) (le_refl _)
    have opens : (text "[").Moves .brace .brace := moves_text (by decide)
    have closes : (text "]").Moves .brace .brace := moves_text (by decide)
    exact (moves_expr object neat.1).cons (opens.cons (inside.cons (closes.cons (.nil .brace))))
  | .call callee arguments, neat => by
    rw [Expr.isNeat, Bool.and_eq_true, Bool.or_eq_true] at neat
    have inside : (bracketed "(" ")" (Expr.docs arguments)).Moves .gap .brace :=
      (moves_arguments (moves_exprs arguments neat.2)).weaken (le_refl _) (by decide)
    have first : callee.doc.Moves .gap .gap :=
      neat.1.elim moves_callee fun neat => (moves_expr callee neat).weaken (le_refl _) (by decide)
    exact first.cons (inside.cons (.nil .brace))
  | .callNamed callee arguments, neat => by
    rw [Expr.isNeat, Bool.and_eq_true] at neat
    have inside := moves_namedArguments (moves_namedExprs arguments neat.2)
    exact (moves_expr callee neat.1).cons
      ((inside.weaken (by decide) (by decide)).cons (.nil .brace))
  | .assign target operator value, neat => by
    simp only [Expr.isNeat, Bool.and_eq_true, isLevel_iff] at neat
    exact moves_operation (moves_expr target neat.1.1) neat.1.2 (moves_expr value neat.2)
  | .binary left operator right, neat => by
    simp only [Expr.isNeat, Bool.and_eq_true, isLevel_iff] at neat
    exact moves_operation (moves_operand (moves_expr left neat.1.1) _) neat.1.2
      (moves_operand (moves_expr right neat.2) _)

theorem moves_exprs : ∀ es : List Expr, Expr.allNeat es = true →
    ∀ doc ∈ Expr.docs es, doc.Moves .opened .brace
  | [], _ => nofun
  | e :: es, neat => by
    rw [Expr.allNeat, Bool.and_eq_true] at neat
    exact List.forall_mem_cons.2
      ⟨(moves_expr e neat.1).weaken (by decide) (le_refl _), moves_exprs es neat.2⟩

theorem moves_namedExprs : ∀ es : List (String × Expr), Expr.allNamedNeat es = true →
    ∀ doc ∈ Expr.namedDocs es, doc.Moves .opened .brace
  | [], _ => nofun
  | (name, e) :: es, neat => by
    simp only [Expr.allNamedNeat, Bool.and_eq_true, isLevel_iff] at neat
    have colon : (text ": ").Moves .opened .gap := moves_text (by decide)
    have label : (text (name ++ ": ")).Moves .opened .gap :=
      (moves_level neat.1.1 (by decide) (by decide)).joined colon
    exact List.forall_mem_cons.2
      ⟨label.cons ((moves_expr e neat.1.2).cons (.nil .brace)), moves_namedExprs es neat.2⟩

end

/-- The words of a header, the first of which starts a line. -/
theorem moves_spaced {w : String} {ws : List String} (starts : startsLine w = true)
    (level : ws.all isLevel = true) : (text (spaced (w :: ws))).Moves .gap .brace := by
  have first : (text w).Moves .gap .brace := moves_text starts
  cases ws with
  | nil => simpa [spaced] using first
  | cons v ws =>
    have split : spaced (w :: v :: ws) = w ++ " " ++ spaced (v :: ws) :=
      String.intercalate_cons_cons
    have space : (text " ").Moves .brace .brace := moves_text (by decide)
    rw [split]
    exact (first.joined space).followed (isLevel_iff.1 (isLevel_spaced level))

theorem moves_value {e : Expr} (neat : (e.isShort || e.isNeat) = true) :
    e.doc.Moves .fresh .fresh :=
  (Bool.or_eq_true _ _ ▸ neat).elim (moves_short (by decide) (by decide))
    fun neat => (moves_expr e neat).weaken (by decide) (by decide)

theorem moves_variable {v : Variable} (neat : v.isNeat = true) : v.doc.Moves .gap .ink := by
  simp only [Variable.isNeat, List.all_append, List.all_cons, List.all_nil, Bool.and_true,
    Bool.and_eq_true] at neat
  obtain ⟨⟨starts, modified, named⟩, valued⟩ := neat
  have words : (text (spaced
      (v.type :: v.modifiers ++ if v.name.isEmpty then [] else [v.name]))).Moves .gap .brace := by
    refine moves_spaced starts ?_
    split <;> simp [modified, named]
  have semicolon : (text ";").Moves .fresh .ink := moves_text (by decide)
  have header : v.header.Moves .gap .fresh := by
    unfold Variable.header
    cases value : v.value with
    | none => exact (words.cons (.nil .brace)).weaken (le_refl _) (by decide)
    | some e =>
      rw [value] at valued
      have sign : (text " =").Moves .brace .ink := moves_text (by decide)
      have feed : spaceLine.Moves .ink .fresh := moves_line rfl (by decide)
      have inside := feed.cons ((moves_value valued).cons (.nil .fresh))
      exact words.cons (sign.cons (inside.indent.grouped.cons (.nil .fresh)))
  exact header.cons (semicolon.cons (.nil .ink))

/-- The clauses of a loop in parentheses. -/
theorem moves_clauses {start test step : String} (starts : '\n' ∉ start.toList)
    (tests : '\n' ∉ test.toList) (steps : '\n' ∉ step.toList) :
    (text ("for (" ++ start ++ "; " ++ test ++ "; " ++ step ++ ") ")).Moves .gap .gap := by
  have opens : (text "for (").Moves .gap .brace := moves_text (by decide)
  have next : (text "; ").Moves .brace .brace := moves_text (by decide)
  have closes : (text ") ").Moves .brace .gap := moves_text (by decide)
  have begun := (opens.followed starts).joined next
  have tested := (begun.followed tests).joined next
  exact (tested.followed steps).joined closes

mutual

/-- A statement may begin a line below a gap, and it ends in ink, with a semicolon or a brace. -/
theorem moves_stmt : ∀ s : Stmt, s.isNeat = true → s.doc.Moves .gap .ink
  | .expr e, neat =>
    have semicolon : (text ";").Moves .brace .ink := moves_text (by decide)
    (moves_expr e neat).cons (semicolon.cons (.nil .ink))
  | .decl v, neat => moves_variable neat
  | .ret none, _ => moves_text (by decide)
  | .ret (some e), neat =>
    have word : (text "return ").Moves .gap .gap := moves_text (by decide)
    have semicolon : (text ";").Moves .brace .ink := moves_text (by decide)
    word.cons ((moves_expr e neat).cons (semicolon.cons (.nil .ink)))
  | .cond test body alternative, neat => by
    simp only [Stmt.isNeat, Bool.and_eq_true] at neat
    have opens : (text "if (").Moves .gap .gap := moves_text (by decide)
    have closes : (text ")").Moves .brace .ink := moves_text (by decide)
    have head := opens.cons ((moves_expr test neat.1.1).cons (closes.cons (.nil .ink)))
    have space : (text " ").Moves .ink .gap := moves_text (by decide)
    have inside := moves_block (moves_stmts body neat.1.2)
    exact head.grouped.cons (space.cons (inside.cons (moves_alternative alternative neat.2)))
  | .loop start test step body, neat => by
    simp only [Stmt.isNeat, List.all_cons, List.all_nil, Bool.and_true, Bool.and_eq_true,
      isLevel_iff] at neat
    obtain ⟨⟨starts, tests, steps⟩, inBody⟩ := neat
    have inside := moves_block (moves_stmts body inBody)
    exact (moves_clauses starts tests steps).cons (inside.cons (.nil .ink))

theorem moves_stmts : ∀ ss : List Stmt, Stmt.allNeat ss = true →
    ∀ doc ∈ Stmt.docs ss, doc.Moves .gap .ink
  | [], _ => nofun
  | s :: ss, neat => by
    rw [Stmt.allNeat, Bool.and_eq_true] at neat
    exact List.forall_mem_cons.2 ⟨moves_stmt s neat.1, moves_stmts ss neat.2⟩

/-- An alternative goes on in the line in which the block before it ends. -/
theorem moves_alternative : ∀ alternative : Option (List Stmt),
    Stmt.alternativeNeat alternative = true →
    (concat (Stmt.alternativeDocs alternative)).Moves .ink .ink
  | none, _ => .nil .ink
  | some [], _ =>
    have word : (text " else ").Moves .ink .gap := moves_text (by decide)
    have nothing : (block []).Moves .gap .ink := moves_block nofun
    word.cons (nothing.cons (.nil .ink))
  | some (s :: ss), neat => by
    rw [Stmt.alternativeNeat, Stmt.allNeat, Bool.and_eq_true] at neat
    have word : (text " else ").Moves .ink .gap := moves_text (by decide)
    have first := moves_stmt s neat.1
    have several := moves_block (List.forall_mem_cons.2 ⟨first, moves_stmts ss neat.2⟩)
    have branch : (if s.isCond && ss.isEmpty then s.doc else
        block (s.doc :: Stmt.docs ss)).Moves .gap .ink := by
      split
      · exact first
      · exact several
    exact word.cons (branch.cons (.nil .ink))

end

/-- No line of a comment ends with a blank, and those of a note may not be blank. -/
theorem moves_comment {c : Comment} (neat : c.isNeat = true) : c.doc.Moves .gap .ink := by
  cases c with
  | banner title =>
    have opens : (text "/** ").Moves .gap .brace := moves_text (by decide)
    have closes : (text " **/").Moves .brace .ink := moves_text (by decide)
    exact (opens.followed (isLevel_iff.1 neat)).joined closes
  | note comment =>
    have feed : hardLine.Moves .ink .gap := moves_line rfl (by decide)
    refine moves_join feed (fun doc mem => ?_) (by simp [lines, pieces_ne_nil])
    obtain ⟨line, listed, rfl⟩ := List.mem_map.1 mem
    have ends : (text (trimRight line)).Moves .ink .ink :=
      moves_text (List.all_eq_true.1 neat line listed)
    have start : (text "// ").Moves .gap .ink := moves_text (by decide)
    dsimp only
    split
    · exact moves_text (by decide)
    · exact start.joined ends

theorem moves_stmts_of_all {ss : List Stmt} (neat : ss.all Stmt.isNeat = true) :
    ∀ doc ∈ Stmt.docs ss, doc.Moves .gap .ink := by
  rw [Stmt.docs_eq_map, List.forall_mem_map]
  exact fun s mem => moves_stmt s (List.all_eq_true.1 neat s mem)

theorem moves_argumentList {arguments : List String}
    (neat : arguments.all startsLine = true) : (argumentList arguments).Moves .gap .ink := by
  refine moves_arguments (List.forall_mem_map.2 fun argument mem => ?_)
  have starts : (text argument).Moves .gap .brace :=
    moves_text (List.all_eq_true.1 neat argument mem)
  exact starts.weaken (by decide) (le_refl _)

theorem moves_modifiers {modifiers : List String} (neat : modifiers.all startsLine = true) :
    (concat (modifiers.map fun modifier => .concat [.spaceLine, .text modifier])).Moves
      .brace .brace := by
  induction modifiers with
  | nil => exact .nil .brace
  | cons modifier modifiers ih =>
    rw [List.all_cons, Bool.and_eq_true] at neat
    have feed : spaceLine.Moves .brace .gap := moves_line rfl (by decide)
    have word : (text modifier).Moves .gap .brace := moves_text neat.1
    exact (feed.cons (word.cons (.nil .brace))).cons (ih neat.2)

/-- Modifiers come first, then the result; behind them the brace of the body may follow. -/
theorem moves_trailer {f : Function} (modified : f.modifiers.all startsLine = true)
    (returned : f.result.all isLevel = true) : (concat f.trailer).Moves .brace .brace := by
  refine (moves_modifiers modified).append ?_
  cases result : f.result with
  | none => exact .nil .brace
  | some type =>
    rw [result] at returned
    have feed : spaceLine.Moves .brace .opened := moves_line rfl (by decide)
    have opens : (text "returns (").Moves .opened .brace := moves_text (by decide)
    have closes : (text ")").Moves .brace .brace := moves_text (by decide)
    have whole := (opens.followed (isLevel_iff.1 returned)).joined closes
    exact feed.cons (whole.cons (.nil .brace))

/-- Modifiers and a result may be missing, and the brace of the body follows whatever ends the
head. -/
theorem moves_function {f : Function} (neat : f.isNeat = true) : f.doc.Moves .gap .ink := by
  simp only [Function.isNeat, Bool.and_eq_true, isLevel_iff] at neat
  obtain ⟨⟨⟨⟨named, given⟩, modified⟩, returned⟩, inBody⟩ := neat
  have word : (text "function ").Moves .gap .brace := moves_text (by decide)
  have title := word.followed named
  have trailer := (moves_trailer modified returned).indent
  have arguments : (argumentList f.arguments).Moves .brace .brace :=
    (moves_argumentList given).weaken (by decide) (by decide)
  have header := title.cons (arguments.cons (trailer.cons (moves_openBrace.cons (.nil .brace))))
  have body := moves_blockTail moves_blankLine (moves_stmts_of_all inBody)
  exact header.grouped.cons (body.cons (.nil .ink))

theorem moves_constructor {c : Constructor} (neat : c.isNeat = true) : c.doc.Moves .gap .ink := by
  simp only [Constructor.isNeat, Bool.and_eq_true] at neat
  obtain ⟨⟨given, based⟩, inBody⟩ := neat
  have word : (text "constructor").Moves .gap .gap := moves_text (by decide)
  have arguments := moves_argumentList given
  have body := moves_blockTail moves_blankLine (moves_stmts_of_all inBody)
  have brace := moves_openBrace.cons (.nil .brace)
  unfold Constructor.doc
  cases base : c.base with
  | none =>
    have header := word.cons
      ((arguments.weaken (le_refl _) (by decide)).cons ((moves_nil .brace).cons brace))
    exact header.grouped.cons (body.cons (.nil .ink))
  | some e =>
    rw [base] at based
    have feed : spaceLine.Moves .ink .gap := moves_line rfl (by decide)
    have call := feed.cons ((moves_expr e based).cons (.nil .brace))
    have header := word.cons (arguments.cons (call.indent.cons brace))
    exact header.grouped.cons (body.cons (.nil .ink))

theorem moves_declaration {d : Declaration} (neat : d.isNeat = true) : d.doc.Moves .gap .ink := by
  cases d with
  | field v => exact moves_variable neat
  | function f => exact moves_function neat
  | constructor c => exact moves_constructor neat
  | record name members =>
    simp only [Declaration.isNeat, Bool.and_eq_true, isLevel_iff] at neat
    have word : (text "struct ").Moves .gap .brace := moves_text (by decide)
    have opens : (text " \x7b").Moves .brace .brace := moves_text (by decide)
    have inside : ∀ doc ∈ members.map Variable.doc, doc.Moves .gap .ink :=
      List.forall_mem_map.2 fun v mem => moves_variable (List.all_eq_true.1 neat.2 v mem)
    have title := (word.followed neat.1).joined opens
    have feed : hardLine.Moves .ink .gap := moves_line rfl (by decide)
    exact title.cons ((moves_blockTail feed inside).cons (.nil .ink))
  | attach library type =>
    simp only [Declaration.isNeat, Bool.and_eq_true, isLevel_iff] at neat
    have word : (text "using ").Moves .gap .brace := moves_text (by decide)
    have between : (text " for ").Moves .brace .brace := moves_text (by decide)
    have closes : (text ";").Moves .brace .ink := moves_text (by decide)
    have front := (word.followed neat.1).joined between
    exact (front.followed neat.2).joined closes

theorem moves_member {m : Member} (neat : m.isNeat = true) : m.doc.Moves .gap .ink := by
  cases m with
  | declaration d => exact moves_declaration neat
  | comment c => exact moves_comment neat

/-- The name of a contract stands behind a word, so it may be anything in one line. -/
theorem moves_header {c : Contract} (named : '\n' ∉ c.name.toList)
    (based : c.bases.all startsLine = true) : c.header.Moves .gap .brace := by
  have word : (text "contract ").Moves .gap .brace := moves_text (by decide)
  have title := word.followed named
  have brace := moves_openBrace.cons (.nil .brace)
  unfold Contract.header
  split
  · exact (title.cons brace).grouped
  · rename_i some
    have sign : (text " is").Moves .brace .ink := moves_text (by decide)
    have feed : spaceLine.Moves .ink .opened := moves_line rfl (by decide)
    have each : ∀ doc ∈ c.bases.map text, doc.Moves .opened .brace :=
      List.forall_mem_map.2 fun base mem =>
        have starts : (text base).Moves .gap .brace :=
          moves_text (List.all_eq_true.1 based base mem)
        starts.weaken (by decide) (le_refl _)
    have bases := feed.cons ((moves_commas each (by simpa using some)).cons (.nil .brace))
    exact (title.cons (sign.cons (bases.indent.cons brace))).grouped

theorem moves_contract {c : Contract} (neat : c.isNeat = true) : c.doc.Moves .gap .ink := by
  simp only [Contract.isNeat, Bool.and_eq_true, isLevel_iff] at neat
  obtain ⟨⟨named, based⟩, inBody⟩ := neat
  have inside : ∀ doc ∈ c.body.map Member.doc, doc.Moves .gap .ink :=
    List.forall_mem_map.2 fun m mem => moves_member (List.all_eq_true.1 inBody m mem)
  exact (moves_header named based).cons
    ((moves_blockTail moves_blankLine inside).cons (.nil .ink))

theorem moves_item {i : Item} (neat : i.isNeat = true) : i.doc.Moves .gap .ink := by
  cases i with
  | contract c => exact moves_contract neat
  | comment c => exact moves_comment neat

/-- The license is the one text that ends a line without a sign behind it, so it must not end in a
blank. -/
theorem moves_license {license : String} (ends : endsLineInInk license = true) :
    (text ("// SPDX-License-Identifier: " ++ license)).Moves .gap .ink := by
  have start : (text "// SPDX-License-Identifier: ").Moves .gap .ink := moves_text (by decide)
  exact start.joined (moves_text ends)

theorem moves_pragma {version : String} (level : '\n' ∉ version.toList) :
    (text ("pragma solidity " ++ version ++ ";")).Moves .gap .ink := by
  have start : (text "pragma solidity ").Moves .gap .brace := moves_text (by decide)
  have semicolon : (text ";").Moves .brace .ink := moves_text (by decide)
  exact (start.followed level).joined semicolon

theorem moves_import (path : String) :
    (text ("import " ++ quoted path ++ ";")).Moves .gap .ink := by
  have start : (text "import ").Moves .gap .gap := moves_text (by decide)
  have semicolon : (text ";").Moves .ink .ink := moves_text (by decide)
  exact (start.joined (moves_quoted path)).joined semicolon

/-- Between the sections of a program there is one blank line, and no section is empty. -/
theorem moves_content {p : Program} (neat : p.isNeat = true) : p.content.Moves .gap .ink := by
  simp only [Program.isNeat, Bool.and_eq_true, Bool.not_eq_true', List.isEmpty_eq_false_iff]
    at neat
  obtain ⟨⟨⟨licensed, versioned⟩, some⟩, inBody⟩ := neat
  have sections : ∀ part ∈ p.sections, part.1.Moves .ink .gap ∧
      ∀ doc ∈ part.2, doc.Moves .gap .ink := by
    simp only [Program.sections, List.forall_mem_cons, List.forall_mem_append,
      List.forall_mem_map, Option.mem_toList, Option.map_eq_some_iff]
    have feed : hardLine.Moves .ink .gap := moves_line rfl (by decide)
    refine ⟨⟨feed, ?_, ?_⟩, ⟨feed, fun path _ => moves_import path⟩,
      ⟨moves_blankLine, fun i mem => moves_item (List.all_eq_true.1 inBody i mem)⟩,
      List.forall_mem_nil _⟩
    · rintro _ ⟨license, own, rfl⟩
      exact moves_license (by simpa [own] using licensed)
    · rintro _ ⟨version, own, rfl⟩
      exact moves_pragma (isLevel_iff.1 (by simpa [own] using versioned))
  refine moves_join moves_blankLine (List.forall_mem_map.2 fun part kept => ?_) ?_
  · obtain ⟨mem, filled⟩ := List.mem_filter.1 kept
    obtain ⟨between, all⟩ := sections part mem
    exact moves_join between all (by simpa using filled)
  · simp [Program.sections, some]

end Mintage.Layout.Doc

namespace Mintage.Solidity

open Layout

/-- The page of a neat program is formatted at every width. -/
theorem Program.formatted_render {p : Program} (neat : p.isNeat = true) (width : Nat) :
    Formatted (p.doc.render width).toList := by
  obtain ⟨_, ⟨ss, _, drawn, ⟨feed, _, broken, rfl, rfl⟩, rfl⟩, written⟩ :=
    p.doc.exists_render width
  have behind : feed = [.newLine 0] := by
    rcases broken with rfl | flat
    · rfl
    · cases flat
  have moves : p.content.Moves .opened .ink :=
    (Doc.moves_content neat).weaken (by decide) (le_refl _)
  obtain ⟨last, run, inked⟩ := moves 0 ss drawn
  rw [written, behind, List.append_nil]
  exact Pen.formatted_of_run run (le_trans (by decide) inked)

end Mintage.Solidity
