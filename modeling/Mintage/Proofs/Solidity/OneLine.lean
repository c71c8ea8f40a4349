import Mintage.Proofs.Layout.Lines
import Mintage.Proofs.Layout.Room
import Mintage.Proofs.Solidity.Gathering
import Mintage.Proofs.Text.Words
import Mintage.Solidity.OneLine

/-! Declarations on one line: nothing but blanks is lost when a line is read, and a declaration is
read back from the page on which it is printed. -/
namespace Mintage.Layout

open Solidity Text

/-- A string without its blanks. -/
def ink (s : String) : List Char := marks s.toList

@[simp] theorem ink_append (s t : String) : ink (s ++ t) = ink s ++ ink t := by
  simp [ink]

theorem ink_of_isToken {s : String} (token : IsToken s) : ink s = s.toList := by
  refine List.filter_eq_self.2 fun c mem => ?_
  rw [token.2 c mem]
  rfl

theorem marks_solid (cs : List Char) : marks (solid cs) = marks cs := by
  have gap (c : Char) (isGap : isGap c = true) : isBlank c = true := by
    rw [Layout.isGap, Bool.or_eq_true, beq_iff_eq, beq_iff_eq] at isGap
    rcases isGap with rfl | rfl <;> decide
  rw [marks, solid, List.filter_filter]
  refine List.filter_congr fun c _ => ?_
  cases isGap : Layout.isGap c with
  | false => simp
  | true => simp [gap c isGap]

/-- A page holds the ink of its texts. -/
theorem Doc.marks_render {doc : Doc} (made : doc.Made fun _ => True) (width : Nat) :
    marks (doc.render width).toList = doc.gather ink := by
  obtain ⟨ts, reads, typeset⟩ := doc.typeset_render width
  have texts : marks (allChars ts) = ts.flatMap ink := List.filter_flatMap
  rw [← marks_solid, typeset.solid_eq, marks_solid, texts]
  exact made.flatMap_reads (by decide) doc reads

theorem ink_words (s : String) : (words s).flatMap ink = ink s := by
  have solid : ∀ word ∈ words s, ink word = word.toList := fun word mem =>
    ink_of_isToken (isToken_of_mem_words mem)
  rw [List.flatMap_congr solid, flatMap_words]
  rfl

theorem ink_spaced (ws : List String) : ink (spaced ws) = ws.flatMap ink := by
  induction ws with
  | nil => rfl
  | cons word ws ih =>
    have blank : ink " " = [] := rfl
    by_cases last : ws = []
    · simp [last]
    · rw [spaced_cons last, ink_append, ink_append, ih, blank, List.append_nil, List.flatMap_cons]

theorem ink_dropWhile (cs : List Char) : marks (cs.dropWhile isBlank) = marks cs := by
  induction cs with
  | nil => rfl
  | cons c cs ih =>
    rw [List.dropWhile_cons]
    split
    · rename_i blank
      rw [ih, marks, marks, List.filter_cons_of_neg (by simp [blank])]
    · rfl

theorem ink_trim (s : String) : ink (trim s) = ink s := by
  rw [ink, trim, String.toList_ofList, dropBlanksRight, marks, List.filter_reverse]
  have right := ink_dropWhile (s.toList.dropWhile isBlank).reverse
  rw [marks, marks, List.filter_reverse] at right
  rw [right, List.reverse_reverse]
  exact ink_dropWhile s.toList

theorem Sheet.writeLine_broken (sheet : Sheet) (indent : Nat) (kind : Line) :
    sheet.writeLine indent .broken kind = sheet.breakLine indent := rfl

/-- There is no space to be left out behind a sign of equality. -/
theorem Sheet.text_breakLine (sheet : Sheet) (indent : Nat) :
    ((sheet.write " =").breakLine indent).text =
      sheet.text ++ " =" ++ String.ofList ('\n' :: List.replicate indent ' ') := by
  have kept : unpadded (sheet.write " =").chars = sheet.chars ++ [' ', '='] := by
    rw [Sheet.chars_write, unpadded_append]
    rfl
  have chars := Sheet.chars_breakLine (sheet.write " =") indent
  rw [kept, Sheet.chars, Sheet.chars] at chars
  apply String.toList_inj.1
  rw [Sheet.text, String.toList_ofList, chars]
  simp [Sheet.text]

end Mintage.Layout

namespace Mintage.Solidity

open Layout Text

/-- A word is printed as it is. -/
theorem Expr.doc_ofWord (s : String) : (Expr.ofWord s).doc = .text (trim s) := by
  simp only [Expr.ofWord]
  split
  · rename_i isTrue
    rw [isTrue]
    rfl
  split
  · rename_i isFalse
    rw [isFalse]
    rfl
  split <;> rfl

/-- The balanced part and the rest make up the text. -/
theorem append_of_cutBalanced {depth : Nat} {cs front back : List Char}
    (cut : cutBalanced depth cs = some (front, back)) : front ++ back = cs := by
  induction cs generalizing depth front back with
  | nil => cases cut
  | cons c cs ih =>
    have step {depth : Nat}
        (cut : (cutBalanced depth cs).map (fun cut => (c :: cut.1, cut.2)) = some (front, back)) :
        front ++ back = c :: cs := by
      obtain ⟨⟨front', back'⟩, later, same⟩ := Option.map_eq_some_iff.1 cut
      cases same
      rw [List.cons_append, ih later]
    unfold cutBalanced at cut
    split at cut
    · exact step cut
    split at cut
    · split at cut
      · cases cut
        rfl
      · exact step cut
    · exact step cut

/-- A type is cut off in front of the rest, and nothing is lost in between. -/
theorem append_cutType (head : List Char) : (cutType head).1 ++ (cutType head).2 = head := by
  unfold cutType
  split
  · cases cut : cutBalanced 0 head with
    | none => exact List.append_nil head
    | some parts => exact append_of_cutBalanced cut
  · exact List.takeWhile_append_dropWhile

/-- The parenthesis that is open in front of a text is closed by the last character of the text. -/
def Closes (cs : List Char) : Prop :=
  cs.count ')' = cs.count '(' + 1 ∧ ∀ n < cs.length, (cs.take n).count ')' ≤ (cs.take n).count '('

instance (cs : List Char) : Decidable (Closes cs) := inferInstanceAs (Decidable (_ ∧ _))

/-- A mapping type whose words have one space between neighbours. -/
def IsMapping (type : String) : Prop :=
  spaced (words type) = type ∧ ∃ inner, type = "mapping(" ++ inner ∧ Closes inner.toList

/-- Some more parentheses are open in front of the text. -/
structure ClosesFrom (depth : Nat) (cs : List Char) : Prop where
  balance : cs.count ')' = cs.count '(' + depth + 1
  inside : ∀ n < cs.length, (cs.take n).count ')' ≤ (cs.take n).count '(' + depth

namespace ClosesFrom

variable {depth : Nat} {c : Char} {cs : List Char}

theorem inside_tail (closes : ClosesFrom depth (c :: cs)) {n : Nat} (below : n < cs.length) :
    (c :: cs.take n).count ')' ≤ (c :: cs.take n).count '(' + depth :=
  closes.inside (n + 1) (Nat.succ_lt_succ below)

theorem opened (closes : ClosesFrom depth ('(' :: cs)) : ClosesFrom (depth + 1) cs where
  balance := by
    have balance := closes.balance
    simp at balance
    omega
  inside n below := by
    have bound := closes.inside_tail below
    simp at bound
    omega

/-- A closing parenthesis takes one from those that are to close. -/
theorem closed (closes : ClosesFrom (depth + 1) (')' :: cs)) : ClosesFrom depth cs where
  balance := by
    have balance := closes.balance
    simp at balance
    omega
  inside n below := by
    have bound := closes.inside_tail below
    simp at bound
    omega

theorem last (closes : ClosesFrom 0 (')' :: cs)) : cs = [] := by
  by_contra more
  have bound := closes.inside_tail (List.length_pos_iff.2 more)
  simp at bound

theorem other (closes : ClosesFrom depth (c :: cs)) (notOpen : c ≠ '(') (notClosed : c ≠ ')') :
    ClosesFrom depth cs where
  balance := by simpa [notOpen, notClosed] using closes.balance
  inside n below := by simpa [notOpen, notClosed] using closes.inside_tail below

end ClosesFrom

/-- A text that closes all open parentheses with its last character is cut off whole. -/
theorem cutBalanced_append {depth : Nat} {cs : List Char} (closes : ClosesFrom depth cs)
    (rest : List Char) : cutBalanced (depth + 1) (cs ++ rest) = some (cs, rest) := by
  induction cs generalizing depth with
  | nil => cases closes.balance
  | cons c cs ih =>
    rw [List.cons_append, cutBalanced]
    by_cases opens : c = '('
    · subst opens
      rw [if_pos rfl, ih closes.opened]
      rfl
    by_cases isClosing : c = ')'
    · subst isClosing
      rw [if_neg (by decide), if_pos rfl]
      cases depth with
      | zero =>
        rw [if_pos (by decide), closes.last]
        rfl
      | succ depth =>
        rw [if_neg (by omega), Nat.add_sub_cancel, ih closes.closed]
        rfl
    · rw [if_neg opens, if_neg isClosing, ih (closes.other opens isClosing)]
      rfl

/-- The parenthesis of a mapping is found although its inside may have parentheses. -/
theorem cutBalanced_mapping {inner : List Char} (closes : Closes inner) (rest : List Char) :
    cutBalanced 0 ("mapping(".toList ++ inner ++ rest) =
      some ("mapping(".toList ++ inner, rest) := by
  have cut : cutBalanced 1 (inner ++ rest) = some (inner, rest) :=
    cutBalanced_append ⟨closes.1, closes.2⟩ rest
  simp [cutBalanced, cut]

/-- A mapping type is cut off as a whole, with the spaces in it. -/
theorem cutType_of_isMapping {type : String} (mapping : IsMapping type) (rest : List Char) :
    cutType (type.toList ++ rest) = (type.toList, rest) := by
  obtain ⟨-, inner, rfl, closes⟩ := mapping
  have starts : "mapping(".toList.isPrefixOf
      ("mapping(".toList ++ inner.toList ++ rest) = true := by
    rw [List.isPrefixOf_iff_prefix, List.append_assoc]
    exact List.prefix_append ..
  rw [String.toList_append, cutType, if_pos starts, cutBalanced_mapping closes]
  rfl

/-- Any other type ends at the first space. -/
theorem cutType_of_isToken {type : String} (token : IsToken type)
    (notMapping : ¬ "mapping(".toList <+: type.toList) (rest : List Char) :
    cutType (type.toList ++ ' ' :: rest) = (type.toList, ' ' :: rest) := by
  have solid : ∀ c ∈ type.toList, (c != ' ') = true := by
    intro c mem
    rw [bne_iff_ne]
    rintro rfl
    exact absurd (token.2 ' ' mem) (by decide)
  have other : "mapping(".toList.isPrefixOf (type.toList ++ ' ' :: rest) = false := by
    rw [← Bool.not_eq_true, List.isPrefixOf_iff_prefix]
    intro starts
    have spaceless : ' ' ∉ "mapping(".toList := by decide
    have front : type.toList ++ [' '] <+: type.toList ++ ' ' :: rest := ⟨rest, by simp⟩
    rcases List.prefix_or_prefix_of_prefix starts front with inFront | longer
    · rcases List.prefix_concat_iff.1 inFront with same | inType
      · exact spaceless (same ▸ by simp)
      · exact notMapping inType
    · exact spaceless (longer.subset (by simp))
  rw [cutType, other, if_neg Bool.false_ne_true, List.takeWhile_append_of_pos solid,
    List.dropWhile_append_of_pos solid]
  simp

namespace Variable

/-- The words in front of the value. -/
def headWords (v : Variable) : List String :=
  v.type :: v.modifiers ++ (if v.name.isEmpty then [] else [v.name])

theorem ink_headWords (v : Variable) :
    v.headWords.flatMap ink = ink v.type ++ (v.modifiers.flatMap ink ++ ink v.name) := by
  rw [headWords, List.cons_append, List.flatMap_cons, List.flatMap_append]
  split
  · rename_i empty
    rw [String.isEmpty_iff.1 empty]
    rfl
  · rw [List.flatMap_singleton]

theorem header_of_none {v : Variable} (none : v.value = none) :
    v.header = .concat [.text (spaced v.headWords)] := by
  rw [header, none]
  rfl

theorem header_of_some {v : Variable} {e : Expr} (some : v.value = some e) :
    v.header = .concat [.text (spaced v.headWords), .text " =",
      .grouped (.indent (.concat [.spaceLine, e.doc]))] := by
  rw [header, some]
  rfl

/-- The ink of a declaration is that of its words and its value, with the sign of equality and the
semicolon. -/
theorem gather_doc (v : Variable) :
    v.doc.gather ink =
      v.headWords.flatMap ink ++ ((v.value.map fun e => '=' :: e.doc.gather ink).getD [] ++
        [';']) := by
  have sign : ink " =" = ['='] := rfl
  have semicolon : ink ";" = [';'] := rfl
  rw [doc, Doc.gather_concat]
  cases value : v.value with
  | none => simp [header_of_none value, ink_spaced, semicolon]
  | some e => simp [header_of_some value, ink_spaced, sign, semicolon, Doc.spaceLine]

/-- What a line holds in front of the first sign of equality. -/
def lineHead (line : String) : List String := (words line).takeWhile (· != "=")

/-- The sign of equality in a line and what follows it. -/
def lineValue (line : String) : List String := (words line).dropWhile (· != "=")

/-- What a line holds behind the type and in front of the sign of equality. -/
def lineRest (line : String) : List String :=
  words (String.ofList (cutType (spaced (lineHead line)).toList).2)

theorem ofLine_eq (line : String) :
    ofLine line =
      { type := String.ofList (cutType (spaced (lineHead line)).toList).1
        modifiers := (lineRest line).dropLast
        name := (lineRest line).getLast?.getD ""
        value := (lineValue line).tail?.map fun ws => Expr.ofWord (spaced ws) } := by
  unfold ofLine lineRest lineHead lineValue
  simp only []
  cases (words line).dropWhile (· != "=") <;> rfl

theorem flatMap_dropLast_append (ws : List String) :
    ws.dropLast.flatMap ink ++ ink (ws.getLast?.getD "") = ws.flatMap ink := by
  rcases ws.eq_nil_or_concat with rfl | ⟨front, last, rfl⟩
  · rfl
  · simp

/-- What stands in front of the sign of equality is told apart into type, modifiers and name, but
none of it is dropped. -/
theorem ink_ofLine_head (line : String) :
    (ofLine line).headWords.flatMap ink = (lineHead line).flatMap ink := by
  have cut := congrArg marks (append_cutType (spaced (lineHead line)).toList)
  have rest : (lineRest line).flatMap ink =
      marks (cutType (spaced (lineHead line)).toList).2 := by
    rw [lineRest, ink_words, ink, String.toList_ofList]
  rw [ink_headWords, ofLine_eq, flatMap_dropLast_append, rest, ink, String.toList_ofList,
    ← marks_append, cut, ← ink_spaced, ink]

/-- The value is what stands behind the first sign of equality, blanks apart. -/
theorem ink_ofLine_value (line : String) :
    (((ofLine line).value.map fun e => '=' :: e.doc.gather ink).getD []) =
      (lineValue line).flatMap ink := by
  rw [ofLine_eq]
  cases value : lineValue line with
  | nil => rfl
  | cons sign ws =>
    have isSign : sign = "=" := by
      have first := List.head?_dropWhile_not (fun word => word != "=") (words line)
      rw [← lineValue, value] at first
      simpa using first
    have text : ink "=" = ['='] := rfl
    simp [Expr.doc_ofWord, ink_trim, ink_spaced, isSign, text]

/-- Nothing but blanks is lost when a line is read and printed. -/
theorem marks_render_ofLine (line : String) (width : Nat) :
    marks ((Declaration.field (ofLine line)).doc.render width).toList = ink line ++ [';'] := by
  have made : (Declaration.field (ofLine line)).doc.Made fun _ => True :=
    (Node.declaration (.field (ofLine line))).made
  have parts : (lineHead line).flatMap ink ++ (lineValue line).flatMap ink = ink line := by
    rw [← List.flatMap_append, lineHead, lineValue, List.takeWhile_append_dropWhile, ink_words]
  have texts : (Declaration.field (ofLine line)).doc.gather ink =
      (ofLine line).headWords.flatMap ink ++
        (((ofLine line).value.map fun e => '=' :: e.doc.gather ink).getD [] ++ [';']) :=
    gather_doc _
  rw [Doc.marks_render made, texts, ink_ofLine_head, ink_ofLine_value, ← List.append_assoc, parts]

/-- A page with one declaration that has no value. -/
theorem render_of_none {v : Variable} (none : v.value = none) (width : Nat) :
    v.doc.render width = spaced v.headWords ++ ";" := by
  rw [doc, header_of_none none]
  simp [Doc.render, put, putAll]

/-- The value of a declaration stands on its line, or alone on the next one. -/
theorem render_of_some {v : Variable} {e : Expr} {word : String} (some : v.value = some e)
    (text : e.doc = .text word) (width : Nat) :
    ∃ gap, (gap = " " ∨ gap = "\n  ") ∧
      v.doc.render width = spaced v.headWords ++ " =" ++ gap ++ word ++ ";" := by
  have head : (Sheet.blank.write (spaced v.headWords)).text = spaced v.headWords := by simp
  rw [doc, header_of_some some, text]
  simp only [Doc.render, put, putAll, Doc.grouped, Doc.spaceLine, Sheet.text_write]
  cases groupMode width _ _ _ _ with
  | flat =>
    refine ⟨" ", .inl rfl, ?_⟩
    rw [Sheet.writeLine, Sheet.text_write, Sheet.text_write, head]
  | broken =>
    refine ⟨"\n  ", .inr rfl, ?_⟩
    rw [Sheet.writeLine_broken, Sheet.text_breakLine, head]
    rfl

/-- A declaration that can be written on one line: its type is one word or a mapping, the other
words are words of their own, none of them is the sign of equality, and its value is read off a text
whose words have one space between neighbours. -/
structure OneLine (v : Variable) : Prop where
  type : IsToken v.type ∧ ¬ "mapping(".toList <+: v.type.toList ∨ IsMapping v.type
  modifiers : ∀ modifier ∈ v.modifiers, IsToken modifier
  name : IsToken v.name
  noSign : "=" ∉ words v.type ++ (v.modifiers ++ [v.name])
  value : ∀ e ∈ v.value, ∃ text, spaced (words text) = text ∧ e = Expr.ofWord text

namespace OneLine

variable {v : Variable}

theorem headWords_eq (oneLine : v.OneLine) :
    v.headWords = v.type :: (v.modifiers ++ [v.name]) := by
  have filled : v.name.isEmpty = false := by simpa using oneLine.name.1
  rw [headWords, filled]
  rfl

theorem spaced_headWords (oneLine : v.OneLine) :
    spaced v.headWords = v.type ++ " " ++ spaced (v.modifiers ++ [v.name]) := by
  rw [oneLine.headWords_eq, spaced_cons (by simp)]

theorem spaced_words_type (oneLine : v.OneLine) : spaced (words v.type) = v.type := by
  rcases oneLine.type with ⟨token, -⟩ | mapping
  · rw [words_of_isToken token, spaced_singleton]
  · exact mapping.1

theorem tokens (oneLine : v.OneLine) : ∀ word ∈ v.modifiers ++ [v.name], IsToken word :=
  List.forall_mem_append.2 ⟨oneLine.modifiers, List.forall_mem_singleton.2 oneLine.name⟩

/-- The words of a declaration are found again in the line that is made of them. -/
theorem words_headWords (oneLine : v.OneLine) :
    words (spaced v.headWords) = words v.type ++ (v.modifiers ++ [v.name]) := by
  rw [oneLine.spaced_headWords, words_append_space, words_spaced_of_isToken oneLine.tokens]

theorem words_type_ne_nil (oneLine : v.OneLine) : words v.type ≠ [] := by
  intro none
  have empty : "" = v.type := by rw [← oneLine.spaced_words_type, none, spaced_nil]
  rcases oneLine.type with ⟨token, -⟩ | ⟨-, inner, same, -⟩
  · exact token.1 empty.symm
  · have chars := congrArg String.toList (empty.trans same)
    simp at chars

theorem spaced_words_headWords (oneLine : v.OneLine) :
    spaced (words (spaced v.headWords)) = spaced v.headWords := by
  rw [oneLine.words_headWords, spaced_append oneLine.words_type_ne_nil (by simp),
    oneLine.spaced_words_type, oneLine.spaced_headWords]

theorem cutType_headWords (oneLine : v.OneLine) :
    cutType (spaced v.headWords).toList =
      (v.type.toList, ' ' :: (spaced (v.modifiers ++ [v.name])).toList) := by
  have split : (spaced v.headWords).toList =
      v.type.toList ++ ' ' :: (spaced (v.modifiers ++ [v.name])).toList := by
    rw [oneLine.spaced_headWords]
    simp
  rw [split]
  rcases oneLine.type with ⟨token, notMapping⟩ | mapping
  · exact cutType_of_isToken token notMapping _
  · exact cutType_of_isMapping mapping _

/-- In front of a sign of equality, all words of a declaration are kept. -/
theorem lineHead_eq (oneLine : v.OneLine) {line : String} {tail : List String}
    (held : words line = words (spaced v.headWords) ++ tail)
    (ends : ∀ word ∈ tail.head?, word = "=") :
    lineHead line = words (spaced v.headWords) ∧ lineValue line = tail := by
  have kept : ∀ word ∈ words (spaced v.headWords), (word != "=") = true := by
    intro word mem
    rw [bne_iff_ne]
    rintro rfl
    exact oneLine.noSign (oneLine.words_headWords ▸ mem)
  have stops : tail.takeWhile (· != "=") = [] ∧ tail.dropWhile (· != "=") = tail := by
    cases tail with
    | nil => exact ⟨rfl, rfl⟩
    | cons sign tail => simp [ends sign rfl]
  rw [lineHead, lineValue, held, List.takeWhile_append_of_pos kept,
    List.dropWhile_append_of_pos kept, stops.1, stops.2, List.append_nil]
  exact ⟨rfl, rfl⟩

/-- A declaration is found in a line that holds its words. -/
theorem ofLine_eq_of_words (oneLine : v.OneLine) {line : String} {tail : List String}
    (held : words line = words (spaced v.headWords) ++ tail)
    (ends : ∀ word ∈ tail.head?, word = "=") (value : (ofLine line).value = v.value) :
    ofLine line = v := by
  obtain ⟨head, -⟩ := oneLine.lineHead_eq held ends
  have cut : cutType (spaced (lineHead line)).toList =
      (v.type.toList, ' ' :: (spaced (v.modifiers ++ [v.name])).toList) := by
    rw [head, oneLine.spaced_words_headWords, oneLine.cutType_headWords]
  have rest : lineRest line = v.modifiers ++ [v.name] := by
    have front := words_append_space "" (spaced (v.modifiers ++ [v.name]))
    have blank : String.ofList (' ' :: (spaced (v.modifiers ++ [v.name])).toList) =
        "" ++ " " ++ spaced (v.modifiers ++ [v.name]) := by
      apply String.toList_inj.1
      simp
    rw [lineRest, cut, blank, front, words_spaced_of_isToken oneLine.tokens]
    rfl
  rw [ofLine_eq] at value ⊢
  simp only at value
  rw [value, cut, rest]
  simp

/-- However it is wrapped, a declaration is read back from its page, the semicolon apart. -/
theorem ofLine_render (oneLine : v.OneLine) (width : Nat) :
    ∃ line, v.doc.render width = line ++ ";" ∧ ofLine line = v := by
  cases valued : v.value with
  | none =>
    have held : words (spaced v.headWords) = words (spaced v.headWords) ++ [] := by simp
    refine ⟨spaced v.headWords, render_of_none valued width, ?_⟩
    refine oneLine.ofLine_eq_of_words held nofun ?_
    rw [ofLine_eq, (oneLine.lineHead_eq held nofun).2, valued]
    rfl
  | some e =>
    obtain ⟨text, single, rfl⟩ := oneLine.value e valued
    obtain ⟨gap, blank, page⟩ := render_of_some valued (Expr.doc_ofWord text) width
    have trimmed : trim text = text := by rw [← single, trim_spaced_words]
    have sign : words (spaced v.headWords ++ " =") = words (spaced v.headWords) ++ ["="] := by
      have front := words_append_space (spaced v.headWords) "="
      rwa [String.append_assoc] at front
    have held : words (spaced v.headWords ++ " =" ++ gap ++ text) =
        words (spaced v.headWords) ++ "=" :: words text := by
      rcases blank with rfl | rfl
      · rw [words_append_blanks (by decide) (by decide), sign, List.append_assoc]
        rfl
      · rw [words_append_blanks (by decide) (by decide), sign, List.append_assoc]
        rfl
    have ends : ∀ word ∈ ("=" :: words text).head?, word = "=" := by simp
    refine ⟨_, page, ?_⟩
    rw [trimmed]
    refine oneLine.ofLine_eq_of_words held ends ?_
    rw [ofLine_eq, (oneLine.lineHead_eq held ends).2, valued]
    exact congrArg (fun value => some (Expr.ofWord value)) single

end OneLine

/-- Whatever stands in a line, it is read without any loss: printed at any width, it has the same
characters but for blanks, and a semicolon behind them. A declaration that can be written on one
line is read back from its page, wherever it is wrapped there. -/
theorem ofLine_faithful :
    (∀ line width, ink ((Declaration.field (ofLine line)).doc.render width) =
      ink (line ++ ";")) ∧
    ∀ v : Variable, v.OneLine → ∀ width, ∃ line,
      (Declaration.field v).doc.render width = line ++ ";" ∧ ofLine line = v := by
  refine ⟨fun line width => ?_, fun v oneLine width => oneLine.ofLine_render width⟩
  rw [ink_append]
  exact marks_render_ofLine line width

/-- A mapping with a value, too long for one line. -/
def sampleMapping : Variable where
  type := "mapping(address => mapping(uint256 => bool))"
  modifiers := ["public"]
  name := "approvals"
  value := some (.ofWord "Registry(0x12) == old = true")

theorem ofLine_sampleMapping :
    sampleMapping.OneLine ∧
      (Declaration.field sampleMapping).print =
        "mapping(address => mapping(uint256 => bool)) public approvals =\n" ++
          "  Registry(0x12) == old = true;" ∧
      ∃ line, (Declaration.field sampleMapping).print = line ++ ";" ∧
        ofLine line = sampleMapping := by
  have oneLine : sampleMapping.OneLine := by
    refine ⟨.inr ⟨by decide, "address => mapping(uint256 => bool))", by decide, by decide⟩,
      by decide, by decide, by decide, ?_⟩
    rintro e ⟨⟩
    exact ⟨_, by decide, rfl⟩
  exact ⟨oneLine, by decide, ofLine_faithful.2 sampleMapping oneLine pageWidth⟩

end Variable

end Mintage.Solidity
