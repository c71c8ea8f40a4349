import Mintage.Proofs.Solidity.Lexing

/-! Programs whose pieces of source are tidy are read as the words and signs of their texts, and
brackets are closed where they belong. -/
namespace Mintage.Solidity

open Layout Text

/-- A piece closes its brackets and literals, declares no contract, and may stand where its role
says. -/
def isTidy : Piece → Bool
  | (.code, s) => Doc.passes .fresh [] .code [] s
  | (.phrase, s) => Doc.passes .fresh [] .phrase [] s
  | (.operator, s) => Doc.passes .code [] .phrase [] (" " ++ s)
  | (.banner, s) => Doc.passes .fresh [] .fresh [] ("/** " ++ s ++ " **/")
  | (.line, s) => !s.toList.contains '\n'

/-- In a literal no character ends it. -/
theorem run_encode (cs rest : List Char) :
    Lexer.literal.run (Quoted.encode cs ++ rest) = Lexer.literal.run rest := by
  induction cs with
  | nil => rfl
  | cons c cs ih =>
    rw [Quoted.encode_cons, List.append_assoc]
    rcases Quoted.escape_cases c with ⟨d, same⟩ | ⟨quote, slash, same⟩
    · simp [same, Lexer.run_cons, Lexer.step, ih]
    · simp [same, Lexer.run_cons, Lexer.step, quote, slash, ih]

/-- A literal is read without a trace, whatever it holds. -/
theorem run_quoted (s : String) : Lexer.code.run (quoted s).toList = ([], .code) := by
  have opens : Lexer.code.step '"' = ([], .literal) := by decide
  rw [quoted, String.toList_ofList, Lexer.run_cons, opens, run_encode]
  rfl

end Mintage.Solidity

namespace Mintage.Layout.Doc

open Solidity Text

variable {e f e' f' : Edge} {doc : Doc}

theorem Within.weaken (within : doc.Within e f) (start : e'.le e = true) (finish : f.le f' = true) :
    doc.Within e' f' := fun due => (within due).weaken start finish

theorem within_text {t : String} (passed : passes e [] f [] t = true) : (text t).Within e f :=
  tidy_text passed

theorem within_quoted (s : String) : (text (quoted s)).Within .fresh .fresh := by
  have nothing : Text.lexemes (quoted s).toList = [] := by rw [Text.lexemes, run_quoted]; rfl
  refine fun due => .text ?_ (nothing ▸ .nil due nofun)
  rw [leads, run_quoted]
  rfl

/-- The dot in front of a member is a sign, whether it stands in the same line or in the next
one. -/
theorem within_memberDoc {object : Doc} (tidy : object.Within .fresh .code) {name : String}
    (named : isTidy (.code, name) = true) (ofCall : Bool) :
    (memberDoc ofCall object name).Within .fresh .code := by
  intro due
  have dot := tidy_text (show passes .code [] .fresh [] "." = true by decide) due
  have text : (Doc.text ("." ++ name)).Tidy ⟨.code, due⟩ ⟨.code, due⟩ :=
    .joined dot (within_text named due)
  unfold memberDoc
  split
  · have inside : (concat [softLine, Doc.text ("." ++ name)]).Tidy ⟨.code, due⟩ ⟨.code, due⟩ :=
      .cons (within_softLine .code due) (.cons text (.nil _))
    exact .grouped (.cons (tidy due) (.cons inside.indent (.nil _)))
  · exact .cons (tidy due) (.cons text (.nil _))

theorem within_arguments {items : List Doc} (all : ∀ item ∈ items, item.Within .fresh .code) :
    (bracketed "(" ")" items).Within .code .fresh :=
  within_bracketed (d := [')']) (by decide) (by decide) all

theorem within_namedArguments {items : List Doc}
    (all : ∀ item ∈ items, item.Within .fresh .code) :
    (bracketed "(\x7b" "\x7d)" items).Within .code .fresh :=
  within_bracketed (d := ['\x7d', ')']) (by decide) (by decide) all

theorem within_boolText (value : Bool) : (text (boolText value)).Within .fresh .code := by
  cases value <;> exact within_text (by decide)

mutual

/-- An expression begins where nothing is pending and may end with a word. The induction takes its
lists of arguments along. -/
theorem within_expr : ∀ e : Expr, (∀ piece ∈ e.pieces, isTidy piece = true) →
    e.doc.Within .fresh .code
  | .ident name, all => within_text (all (.code, name) List.mem_cons_self)
  | .number digits, all => within_text (all (.code, digits) List.mem_cons_self)
  | .string value, _ => (within_quoted value).weaken rfl rfl
  | .bool value, _ => within_boolText value
  | .member object name, all => by
    simp only [Expr.pieces, List.forall_mem_append, List.forall_mem_singleton] at all
    exact within_memberDoc (within_expr object all.1) all.2 _
  | .index object key, all => by
    simp only [Expr.pieces, List.forall_mem_append] at all
    intro due
    have opened := tidy_text (show passes .code [] .fresh [']'] "[" = true by decide) due
    have closed := tidy_text (show passes .code [']'] .fresh [] "]" = true by decide) due
    have whole : (Expr.index object key).doc.Tidy ⟨.fresh, due⟩ ⟨.fresh, due⟩ :=
      .cons (within_expr object all.1 due)
        (.cons opened (.cons (within_expr key all.2 _) (.cons closed (.nil _))))
    exact whole.weaken rfl rfl
  | .call callee arguments, all => by
    simp only [Expr.pieces, List.forall_mem_append] at all
    intro due
    have inside := within_arguments (within_exprs arguments all.2) due
    have whole : (Expr.call callee arguments).doc.Tidy ⟨.fresh, due⟩ ⟨.fresh, due⟩ :=
      .cons (within_expr callee all.1 due) (.cons inside (.nil _))
    exact whole.weaken rfl rfl
  | .callNamed callee arguments, all => by
    simp only [Expr.pieces, List.forall_mem_append] at all
    intro due
    have inside := within_namedArguments (within_namedExprs arguments all.2) due
    have whole : (Expr.callNamed callee arguments).doc.Tidy ⟨.fresh, due⟩ ⟨.fresh, due⟩ :=
      .cons (within_expr callee all.1 due) (.cons inside (.nil _))
    exact whole.weaken rfl rfl
  | .assign target operator value, all => by
    simp only [Expr.pieces, List.forall_mem_append, List.forall_mem_cons] at all
    exact within_operation (within_expr target all.1) all.2.1 (within_expr value all.2.2)
  | .binary left operator right, all => by
    simp only [Expr.pieces, List.forall_mem_append, List.forall_mem_cons] at all
    exact within_operation (within_operand (within_expr left all.1) _) all.2.1
      (within_operand (within_expr right all.2.2) _)

theorem within_exprs : ∀ es : List Expr, (∀ piece ∈ Expr.allPieces es, isTidy piece = true) →
    ∀ doc ∈ Expr.docs es, doc.Within .fresh .code
  | [], _ => nofun
  | e :: es, all => by
    simp only [Expr.allPieces, List.forall_mem_append] at all
    exact List.forall_mem_cons.2 ⟨within_expr e all.1, within_exprs es all.2⟩

theorem within_namedExprs : ∀ es : List (String × Expr),
    (∀ piece ∈ Expr.namedPieces es, isTidy piece = true) →
    ∀ doc ∈ Expr.namedDocs es, doc.Within .fresh .code
  | [], _ => nofun
  | (name, e) :: es, all => by
    simp only [Expr.namedPieces, List.cons_append, List.forall_mem_cons,
      List.forall_mem_append] at all
    refine List.forall_mem_cons.2 ⟨fun due => ?_, within_namedExprs es all.2.2⟩
    have colon := tidy_text (show passes .code [] .fresh [] ": " = true by decide) due
    have label : (text (name ++ ": ")).Tidy ⟨.fresh, due⟩ ⟨.fresh, due⟩ :=
      .joined (within_text all.1 due) colon
    exact .cons label (.cons (within_expr e all.2.1 due) (.nil _))

end

/-- Phrases with spaces between them, and a last word that may be any. -/
theorem within_spaced {phrases : List String} {last : String}
    (tidy : ∀ w ∈ phrases, isTidy (.phrase, w) = true) (ends : isTidy (.code, last) = true) :
    (text (spaced (phrases ++ [last]))).Within .fresh .code := by
  intro due
  induction phrases with
  | nil => simpa [spaced] using within_text ends due
  | cons w phrases ih =>
    have space := tidy_text (show passes .phrase [] .fresh [] " " = true by decide) due
    have first := within_text (tidy w List.mem_cons_self) due
    have later := ih fun w mem => tidy w (List.mem_cons_of_mem _ mem)
    have split : spaced (w :: (phrases ++ [last])) = w ++ " " ++ spaced (phrases ++ [last]) :=
      String.intercalate_cons_of_ne_nil (by simp)
    rw [List.cons_append, split]
    have front : (text (w ++ " ")).Tidy ⟨.fresh, due⟩ ⟨.fresh, due⟩ := .joined first space
    exact front.joined later

theorem isTidy_code_of_phrase {s : String} (tidy : isTidy (.phrase, s) = true) :
    isTidy (.code, s) = true := by
  simp only [isTidy, passes, Bool.and_eq_true, decide_eq_true_eq] at tidy ⊢
  refine ⟨?_, tidy.2.weaken rfl rfl⟩
  simp only [leads, Bool.and_eq_true] at tidy ⊢
  exact ⟨tidy.1.1, Edge.admits_of_le (e := .phrase) rfl tidy.1.2⟩

/-- A declaration without a name has a type alone, as in a list of results. -/
theorem within_header {v : Variable} (typed : isTidy (.phrase, v.type) = true)
    (modified : ∀ w ∈ v.modifiers, isTidy (.phrase, w) = true)
    (named : isTidy (.code, v.name) = true) :
    (text (spaced (v.type :: v.modifiers ++ if v.name.isEmpty then [] else [v.name]))).Within
      .fresh .code := by
  have all : ∀ w ∈ v.type :: v.modifiers, isTidy (.phrase, w) = true :=
    List.forall_mem_cons.2 ⟨typed, modified⟩
  split
  · rw [List.append_nil, ← List.dropLast_concat_getLast (List.cons_ne_nil v.type v.modifiers)]
    exact within_spaced (fun w mem => all w ((List.dropLast_sublist _).subset mem))
      (isTidy_code_of_phrase (all _ (List.getLast_mem _)))
  · exact within_spaced all named

theorem within_semicolon (due : List Char) : (text ";").Tidy ⟨.code, due⟩ ⟨.fresh, due⟩ :=
  within_text (by decide) due

/-- A declaration ends with a semicolon, behind which nothing is pending. -/
theorem within_variable {v : Variable} (all : ∀ piece ∈ v.pieces, isTidy piece = true) :
    v.doc.Within .fresh .fresh := by
  simp only [Variable.pieces, List.forall_mem_append, List.forall_mem_map,
    List.forall_mem_cons] at all
  obtain ⟨⟨typed, modified⟩, named, valued⟩ := all
  intro due
  have words := within_header typed modified named due
  have header : v.header.Tidy ⟨.fresh, due⟩ ⟨.code, due⟩ := by
    unfold Variable.header
    cases value : v.value with
    | none => exact .cons words (.nil _)
    | some e =>
      rw [value] at valued
      have sign := within_text (show passes .code [] .phrase [] " =" = true by decide) due
      have inside : (concat [spaceLine, e.doc]).Tidy ⟨.phrase, due⟩ ⟨.code, due⟩ :=
        .cons (within_spaceLine due) (.cons (within_expr e valued due) (.nil _))
      exact .cons words (.cons sign (.cons inside.indent.grouped (.nil _)))
  exact .cons header (.cons (within_semicolon due) (.nil _))

/-- The clauses of a loop in parentheses. -/
theorem within_clauses {start test step : String} (starts : isTidy (.code, start) = true)
    (tests : isTidy (.code, test) = true) (steps : isTidy (.code, step) = true) :
    (text ("for (" ++ start ++ "; " ++ test ++ "; " ++ step ++ ") ")).Within .fresh .fresh := by
  intro due
  have opened := tidy_text (show passes .fresh [] .fresh [')'] "for (" = true by decide) due
  have next := tidy_text (show passes .code [] .fresh [] "; " = true by decide) (')' :: due)
  have closed := tidy_text (show passes .code [')'] .fresh [] ") " = true by decide) due
  have begun := (opened.joined (within_text starts _)).joined next
  have tested := (begun.joined (within_text tests _)).joined next
  exact (tested.joined (within_text steps _)).joined closed

mutual

/-- A statement leaves nothing pending: it ends with a semicolon or with a brace. -/
theorem within_stmt : ∀ s : Stmt, (∀ piece ∈ s.pieces, isTidy piece = true) →
    s.doc.Within .fresh .fresh
  | .expr e, all => fun due =>
    .cons (within_expr e all due) (.cons (within_semicolon due) (.nil _))
  | .decl v, all => within_variable all
  | .ret none, _ => within_text (by decide)
  | .ret (some e), all => fun due =>
    .cons (within_text (show passes .fresh [] .fresh [] "return " = true by decide) due)
      (.cons (within_expr e all due) (.cons (within_semicolon due) (.nil _)))
  | .cond test body alternative, all => by
    simp only [Stmt.pieces, List.forall_mem_append] at all
    obtain ⟨⟨inTest, inBody⟩, inAlternative⟩ := all
    intro due
    have opened := tidy_text (show passes .fresh [] .fresh [')'] "if (" = true by decide) due
    have closed := tidy_text (show passes .code [')'] .fresh [] ")" = true by decide) due
    have head : (grouped (concat [text "if (", test.doc, text ")"])).Tidy ⟨.fresh, due⟩
        ⟨.fresh, due⟩ :=
      .grouped (.cons opened (.cons (within_expr test inTest _) (.cons closed (.nil _))))
    have space := within_text (show passes .fresh [] .fresh [] " " = true by decide) due
    have inside := within_block (fun doc mem => (within_stmts body inBody doc mem).weaken rfl rfl)
    exact .cons head (.cons space (.cons (inside due)
      (within_alternative alternative inAlternative due)))
  | .loop start test step body, all => by
    simp only [Stmt.pieces, List.forall_mem_append, List.forall_mem_map, List.forall_mem_cons,
      List.not_mem_nil] at all
    obtain ⟨⟨starts, tests, steps, -⟩, inBody⟩ := all
    have inside := within_block (fun doc mem => (within_stmts body inBody doc mem).weaken rfl rfl)
    exact fun due => .cons (within_clauses starts tests steps due) (.cons (inside due) (.nil _))

theorem within_stmts : ∀ ss : List Stmt, (∀ piece ∈ Stmt.allPieces ss, isTidy piece = true) →
    ∀ doc ∈ Stmt.docs ss, doc.Within .fresh .fresh
  | [], _ => nofun
  | s :: ss, all => by
    simp only [Stmt.allPieces, List.forall_mem_append] at all
    exact List.forall_mem_cons.2 ⟨within_stmt s all.1, within_stmts ss all.2⟩

/-- An alternative of one condition goes on with it in the same line, any other stands in a
block. -/
theorem within_alternative : ∀ alternative : Option (List Stmt),
    (∀ piece ∈ Stmt.alternativePieces alternative, isTidy piece = true) →
    (concat (Stmt.alternativeDocs alternative)).Within .fresh .fresh
  | none, _ => fun _ => .nil _
  | some [], _ => fun due => by
    have nothing : (block []).Within .fresh .fresh := within_block nofun
    exact .cons (within_text (show passes .fresh [] .fresh [] " else " = true by decide) due)
      (.cons (nothing due) (.nil _))
  | some (s :: ss), all => by
    simp only [Stmt.alternativePieces, Stmt.allPieces, List.forall_mem_append] at all
    have first := within_stmt s all.1
    have several : (block (s.doc :: Stmt.docs ss)).Within .fresh .fresh :=
      within_block fun doc mem => by
        rcases List.mem_cons.1 mem with rfl | mem
        · exact first.weaken rfl rfl
        · exact (within_stmts ss all.2 doc mem).weaken rfl rfl
    have continued : (if s.isCond && ss.isEmpty then s.doc else
        block (s.doc :: Stmt.docs ss)).Within .fresh .fresh := by
      split
      · exact first
      · exact several
    exact fun due =>
      .cons (within_text (show passes .fresh [] .fresh [] " else " = true by decide) due)
        (.cons (continued due) (.nil _))

end

theorem tidy_body {ss : List Stmt} (all : ∀ piece ∈ Stmt.allPieces ss, isTidy piece = true)
    (due : List Char) :
    (blockTail blankLine (Stmt.docs ss)).Tidy ⟨.fresh, '\x7d' :: due⟩ ⟨.fresh, due⟩ :=
  tidy_blockTail within_blankLine
    (fun doc mem => (within_stmts ss all doc mem).weaken rfl rfl) due

theorem run_note {cs : List Char} (inLine : '\n' ∉ cs) : Lexer.note.run cs = ([], .note) := by
  induction cs with
  | nil => rfl
  | cons c cs ih =>
    simp only [List.mem_cons, not_or] at inLine
    simp [Lexer.run_cons, Lexer.step, Ne.symm inLine.1, ih inLine.2]

/-- A comment goes on to the end of the line. -/
theorem within_note {start line : String} (opens : Lexer.code.run start.toList = ([], .note))
    (inLine : isTidy (.line, line) = true) : (text (start ++ line)).Within .fresh .line := by
  have rest : Lexer.note.run line.toList = ([], .note) := run_note (by simpa [isTidy] using inLine)
  have told : Lexer.code.run (start ++ line).toList = ([], .note) := by
    rw [String.toList_append, Lexer.run_append, opens, rest]
    rfl
  have nothing : Text.lexemes (start ++ line).toList = [] := by rw [Text.lexemes, told]; rfl
  refine fun due => .text ?_ (nothing ▸ .nil due nofun)
  rw [leads, told]
  rfl

/-- Each line of a comment ends with a comment pending, and the line end closes it. -/
theorem within_comment {c : Comment} (all : ∀ piece ∈ c.pieces, isTidy piece = true) :
    c.doc.Within .fresh .line := by
  cases c with
  | banner title =>
    have titled : isTidy (.banner, title) = true := by simpa [Comment.pieces] using all
    exact (within_text titled).weaken rfl rfl
  | note comment =>
    refine within_join within_hardLine (fun doc mem => ?_) ?_
    · obtain ⟨line, listed, rfl⟩ := List.mem_map.1 mem
      have tidy : isTidy (.line, trimRight line) = true :=
        all (.line, _) (List.mem_map.2 ⟨line, listed, rfl⟩)
      dsimp only
      split
      · have bare : (text ("//" ++ "")).Within .fresh .line := within_note (by decide) (by decide)
        exact bare
      · exact within_note (by decide) tidy
    · simp [lines, pieces_ne_nil]

theorem within_argumentList {arguments : List String}
    (all : ∀ argument ∈ arguments, isTidy (.code, argument) = true) :
    (argumentList arguments).Within .code .fresh := by
  refine within_arguments fun doc mem => ?_
  obtain ⟨argument, listed, rfl⟩ := List.mem_map.1 mem
  exact within_text (all argument listed)

theorem within_modifiers {modifiers : List String}
    (all : ∀ modifier ∈ modifiers, isTidy (.phrase, modifier) = true) :
    (concat (modifiers.map fun modifier => .concat [.spaceLine, .text modifier])).Within
      .phrase .phrase := by
  intro due
  induction modifiers with
  | nil => exact .nil _
  | cons modifier modifiers ih =>
    have word : (concat [spaceLine, text modifier]).Tidy ⟨.phrase, due⟩ ⟨.phrase, due⟩ :=
      .cons (within_spaceLine due) (.cons (within_text (all _ List.mem_cons_self) due) (.nil _))
    exact .cons word (ih fun other mem => all other (List.mem_cons_of_mem _ mem))

theorem within_returns {result : String} (tidy : isTidy (.code, result) = true) :
    (text ("returns (" ++ result ++ ")")).Within .fresh .fresh := by
  intro due
  have opened := tidy_text (show passes .fresh [] .fresh [')'] "returns (" = true by decide) due
  have closed := tidy_text (show passes .code [')'] .fresh [] ")" = true by decide) due
  exact (opened.joined (within_text tidy _)).joined closed

/-- Behind the arguments of a function come its modifiers, and at last its result. -/
theorem within_trailer {f : Function}
    (modified : ∀ modifier ∈ f.modifiers, isTidy (.phrase, modifier) = true)
    (returned : ∀ result, f.result = some result → isTidy (.code, result) = true) :
    (concat f.trailer).Within .phrase .phrase := by
  intro due
  refine (within_modifiers modified due).append ?_
  cases result : f.result with
  | none => exact .nil _
  | some result' =>
    have whole : (concat [spaceLine, text ("returns (" ++ result' ++ ")")]).Tidy ⟨.phrase, due⟩
        ⟨.fresh, due⟩ :=
      .cons (within_spaceLine due) (.cons (within_returns (returned _ result) due) (.nil _))
    exact whole.weaken rfl rfl

/-- The body of a function closes the brace that its head opens. -/
theorem within_function {f : Function} (all : ∀ piece ∈ f.pieces, isTidy piece = true) :
    f.doc.Within .fresh .fresh := by
  simp only [Function.pieces, List.forall_mem_append, List.forall_mem_map,
    List.forall_mem_cons] at all
  obtain ⟨⟨⟨⟨named, given⟩, modified⟩, returned⟩, inBody⟩ := all
  intro due
  have word := within_text (show passes .fresh [] .fresh [] "function " = true by decide) due
  have title : (text ("function " ++ f.name)).Tidy ⟨.fresh, due⟩ ⟨.code, due⟩ :=
    word.joined (within_text named due)
  have trailer := within_trailer modified (fun result own => returned result (by simp [own])) due
  have header : (concat [text ("function " ++ f.name), argumentList f.arguments,
      indent (concat f.trailer), openBrace]).Tidy ⟨.fresh, due⟩ ⟨.fresh, '\x7d' :: due⟩ :=
    .cons title (.cons (within_argumentList given due) (.cons (trailer.indent.weaken rfl rfl)
      (.cons (tidy_openBrace due) (.nil _))))
  exact .cons header.grouped (.cons (tidy_body inBody due) (.nil _))

/-- A base with arguments stands where the modifiers of a function do. -/
theorem within_constructor {c : Constructor} (all : ∀ piece ∈ c.pieces, isTidy piece = true) :
    c.doc.Within .fresh .fresh := by
  simp only [Constructor.pieces, List.forall_mem_append, List.forall_mem_map] at all
  obtain ⟨⟨given, based⟩, inBody⟩ := all
  intro due
  have word := within_text (show passes .fresh [] .code [] "constructor" = true by decide) due
  have arguments := within_argumentList given due
  have body := tidy_body inBody due
  unfold Constructor.doc
  cases base : c.base with
  | none =>
    have nothing : Doc.nil.Tidy ⟨.fresh, due⟩ ⟨.fresh, due⟩ := by
      refine ⟨?_, .nil due id⟩
      rintro indent ss rfl q admitted
      exact ⟨admitted, (List.append_nil _).symm⟩
    have header : (concat [text "constructor", argumentList c.arguments, .nil, openBrace]).Tidy
        ⟨.fresh, due⟩ ⟨.fresh, '\x7d' :: due⟩ :=
      .cons word (.cons arguments (.cons (nothing.weaken rfl rfl)
        (.cons (tidy_openBrace due) (.nil _))))
    exact .cons header.grouped (.cons body (.nil _))
  | some e =>
    rw [base] at based
    have call : (concat [spaceLine, e.doc]).Tidy ⟨.phrase, due⟩ ⟨.code, due⟩ :=
      .cons (within_spaceLine due) (.cons (within_expr e based due) (.nil _))
    have header : (concat [text "constructor", argumentList c.arguments,
        indent (concat [spaceLine, e.doc]), openBrace]).Tidy
        ⟨.fresh, due⟩ ⟨.fresh, '\x7d' :: due⟩ :=
      .cons word (.cons arguments (.cons (call.indent.weaken rfl rfl)
        (.cons (tidy_openBrace due) (.nil _))))
    exact .cons header.grouped (.cons body (.nil _))

theorem within_declaration {d : Declaration} (all : ∀ piece ∈ d.pieces, isTidy piece = true) :
    d.doc.Within .fresh .fresh := by
  cases d with
  | field v => exact within_variable all
  | function f => exact within_function all
  | constructor c => exact within_constructor all
  | record name members =>
    simp only [Declaration.pieces, List.forall_mem_cons] at all
    intro due
    have word := within_text (show passes .fresh [] .fresh [] "struct " = true by decide) due
    have brace := tidy_text (show passes .code [] .fresh ['\x7d'] " \x7b" = true by decide) due
    have head := (word.joined (within_text all.1 due)).joined brace
    have inside : ∀ doc ∈ members.map Variable.doc, doc.Within .fresh .line := by
      intro doc mem
      obtain ⟨v, listed, rfl⟩ := List.mem_map.1 mem
      have tidy := within_variable fun piece own =>
        all.2 piece (List.mem_flatMap.2 ⟨v, listed, own⟩)
      exact tidy.weaken rfl rfl
    exact .cons head (.cons (tidy_blockTail within_hardLine inside due) (.nil _))
  | attach library type =>
    simp only [Declaration.pieces, List.forall_mem_cons, List.not_mem_nil] at all
    intro due
    have word := within_text (show passes .fresh [] .fresh [] "using " = true by decide) due
    have between := within_text (show passes .phrase [] .fresh [] " for " = true by decide) due
    have front := (word.joined (within_text all.1 due)).joined between
    exact (front.joined (within_text all.2.1 due)).joined (within_semicolon due)

theorem within_member {m : Member} (all : ∀ piece ∈ m.pieces, isTidy piece = true) :
    m.doc.Within .fresh .line := by
  cases m with
  | declaration d => exact (within_declaration all).weaken rfl rfl
  | comment c => exact within_comment all

end Mintage.Layout.Doc
