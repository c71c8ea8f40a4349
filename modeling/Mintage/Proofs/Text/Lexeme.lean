import Mathlib.Data.List.Basic
import Mintage.Text.Name
import Mintage.Text.Quoted
import Mintage.Text.Blank

/-! The words and signs of source text, without its literals and comments, and how brackets nest in
them. -/
namespace Mintage.Text

/-- The letters of all scripts are among these characters, and the digits, `$` and `_`. Beyond ASCII
only blanks are excluded. -/
def isPlain (c : Char) : Bool := continuesName c || (128 ≤ c.toNat && !isBlank c)

inductive Lexeme where
  | word (s : String)
  | sign (c : Char)
  deriving DecidableEq, Repr

/-- Where a reader of source text stands. -/
inductive Lexer where
  | code
  /-- In a word, whose characters are reversed. -/
  | word (run : List Char)
  /-- Behind a slash, with which a comment may begin. -/
  | slash
  | literal
  | escaped
  /-- In a comment to the end of the line. -/
  | note
  /-- In a comment between slashes. -/
  | block
  | star
  deriving DecidableEq, Repr

namespace Lexer

/-- What is read but not yet told, where the text ends. -/
def pending : Lexer → List Lexeme
  | word run => [.word (String.ofList run.reverse)]
  | slash => [.sign '/']
  | _ => []

/-- The first character of something in code. -/
def start (c : Char) : List Lexeme × Lexer :=
  if isPlain c then ([], word [c])
  else if c = '"' then ([], literal)
  else if c = '/' then ([], slash)
  else if isBlank c then ([], code)
  else ([.sign c], code)

def step : Lexer → Char → List Lexeme × Lexer
  | code, c => start c
  | word run, c =>
    if isPlain c then ([], word (c :: run))
    else (.word (String.ofList run.reverse) :: (start c).1, (start c).2)
  | slash, c =>
    if c = '/' then ([], note)
    else if c = '*' then ([], block)
    else (.sign '/' :: (start c).1, (start c).2)
  | literal, c => ([], if c = '"' then code else if c = '\\' then escaped else literal)
  | escaped, _ => ([], literal)
  | note, c => ([], if c = '\n' then code else note)
  | block, c => ([], if c = '*' then star else block)
  | star, c => ([], if c = '/' then code else if c = '*' then star else block)

/-- What is told of a text, and where the reader stands behind it. -/
def run : Lexer → List Char → List Lexeme × Lexer
  | q, [] => ([], q)
  | q, c :: cs => ((q.step c).1 ++ ((q.step c).2.run cs).1, ((q.step c).2.run cs).2)

@[simp] theorem run_nil (q : Lexer) : q.run [] = ([], q) := rfl

theorem run_cons (q : Lexer) (c : Char) (cs : List Char) :
    q.run (c :: cs) = ((q.step c).1 ++ ((q.step c).2.run cs).1, ((q.step c).2.run cs).2) := rfl

theorem run_append (q : Lexer) (cs ds : List Char) :
    q.run (cs ++ ds) = ((q.run cs).1 ++ ((q.run cs).2.run ds).1, ((q.run cs).2.run ds).2) := by
  induction cs generalizing q with
  | nil => rfl
  | cons c cs ih => simp [run_cons, ih]

/-- Nowhere does it matter whether there is a space in front of a line feed. -/
theorem run_space_newLine (q : Lexer) (cs : List Char) :
    q.run (' ' :: '\n' :: cs) = q.run ('\n' :: cs) := by
  have space : start ' ' = ([], code) := by decide
  have feed : start '\n' = ([], code) := by decide
  have notPlain : isPlain ' ' = false ∧ isPlain '\n' = false := by decide
  cases q with
  | word run => simp [run_cons, step, notPlain, space, feed]
  | _ => simp [run_cons, step, space, feed]

/-- Spaces at the end of a line do not matter to a reader, wherever it stands. -/
theorem run_spaces_newLine (q : Lexer) (n : Nat) (cs : List Char) :
    q.run (List.replicate n ' ' ++ '\n' :: cs) = q.run ('\n' :: cs) := by
  induction n generalizing q with
  | zero => rfl
  | succ n ih =>
    rw [List.replicate_succ, List.cons_append, run_cons, ih, ← run_cons, run_space_newLine]

end Lexer

/-- The words and signs of a text. -/
def lexemes (cs : List Char) : List Lexeme := (Lexer.code.run cs).1 ++ (Lexer.code.run cs).2.pending

/-- The brackets, each opening one with the one that closes it. -/
def brackets : List (Char × Char) := [('(', ')'), ('[', ']'), ('\x7b', '\x7d')]

def opens (c : Char) : Bool := (brackets.map Prod.fst).contains c

def closes (c : Char) : Bool := (brackets.map Prod.snd).contains c

/-- Brackets are properly nested. -/
inductive Nested : List Lexeme → Prop where
  | nil : Nested []
  | word {ls : List Lexeme} (s : String) (rest : Nested ls) : Nested (.word s :: ls)
  | sign {ls : List Lexeme} (c : Char) (plain : opens c = false ∧ closes c = false)
    (rest : Nested ls) : Nested (.sign c :: ls)
  | pair {inner ls : List Lexeme} (opening closing : Char)
    (known : (opening, closing) ∈ brackets) (inside : Nested inner) (rest : Nested ls) :
    Nested (.sign opening :: inner ++ .sign closing :: ls)

/-- The brackets that are still to close behind a text, the innermost first. The list `due` says
which are to close in front of it. -/
def unclosed (due : List Char) : List Lexeme → Option (List Char)
  | [] => some due
  | .word _ :: ls => unclosed due ls
  | .sign c :: ls =>
    match brackets.lookup c with
    | some closing => unclosed (closing :: due) ls
    | none =>
      if closes c then
        match due with
        | [] => none
        | closing :: due => if c = closing then unclosed due ls else none
      else unclosed due ls

theorem unclosed_append (due : List Char) (ls more : List Lexeme) :
    unclosed due (ls ++ more) = (unclosed due ls).bind fun due => unclosed due more := by
  induction ls generalizing due with
  | nil => rfl
  | cons l ls ih =>
    cases l with
    | word s => exact ih due
    | sign c =>
      simp only [List.cons_append, unclosed]
      split
      · exact ih _
      split
      · split
        · rfl
        split
        · exact ih _
        · rfl
      · exact ih _

/-- What is due outside of a text stays due. -/
theorem unclosed_frame {due rest : List Char} (outer : List Char) {ls : List Lexeme}
    (read : unclosed due ls = some rest) : unclosed (due ++ outer) ls = some (rest ++ outer) := by
  induction ls generalizing due with
  | nil =>
    cases read
    rfl
  | cons l ls ih =>
    cases l with
    | word s => exact ih read
    | sign c =>
      simp only [unclosed] at read ⊢
      split at read
      · exact ih read
      split at read
      · rename_i isClosing
        rw [if_pos isClosing]
        split at read
        · cases read
        split at read
        · rename_i same
          rw [List.cons_append]
          simpa [same] using ih read
        · cases read
      · rename_i other
        rw [if_neg other]
        exact ih read

/-- The text up to the bracket that is due first is nested, and so on for those behind. -/
def ClosesAll : List Char → List Lexeme → Prop
  | [], ls => Nested ls
  | closing :: due, ls =>
    ∃ inner rest, ls = inner ++ .sign closing :: rest ∧ Nested inner ∧ ClosesAll due rest

theorem ClosesAll.cons {due : List Char} {ls : List Lexeme} (all : ClosesAll due ls) {l : Lexeme}
    (nested : ∀ {ls}, Nested ls → Nested (l :: ls)) : ClosesAll due (l :: ls) := by
  cases due with
  | nil => exact nested all
  | cons closing due =>
    obtain ⟨inner, rest, rfl, inside, later⟩ := all
    exact ⟨l :: inner, rest, rfl, nested inside, later⟩

/-- An opening bracket goes with the one that is due first behind it. -/
theorem ClosesAll.pair {opening closing : Char} (known : (opening, closing) ∈ brackets)
    {due : List Char} {ls : List Lexeme} (all : ClosesAll (closing :: due) ls) :
    ClosesAll due (.sign opening :: ls) := by
  obtain ⟨inner, rest, rfl, inside, later⟩ := all
  cases due with
  | nil => exact Nested.pair opening closing known inside later
  | cons next due =>
    obtain ⟨behind, rest, rfl, nested, later⟩ := later
    exact ⟨.sign opening :: inner ++ .sign closing :: behind, rest, by simp,
      Nested.pair opening closing known inside nested, later⟩

theorem mem_brackets_of_lookup {c closing : Char} (found : brackets.lookup c = some closing) :
    (c, closing) ∈ brackets := by
  obtain ⟨front, back, split, -⟩ := List.lookup_eq_some_iff.1 found
  rw [split]
  exact List.mem_append_right _ List.mem_cons_self

theorem opens_eq_false_of_lookup {c : Char} (missing : brackets.lookup c = none) :
    opens c = false := by
  have other := List.lookup_eq_none_iff.1 missing
  simpa [opens, brackets] using other

/-- A text that leaves nothing due closes, one after the other, all brackets that were due in front
of it. -/
theorem closesAll_of_unclosed {due : List Char} {ls : List Lexeme}
    (read : unclosed due ls = some []) : ClosesAll due ls := by
  induction ls generalizing due with
  | nil =>
    cases read
    exact .nil
  | cons l ls ih =>
    cases l with
    | word s => exact (ih read).cons (.word s)
    | sign c =>
      simp only [unclosed] at read
      split at read
      · rename_i closing found
        exact (ih read).pair (mem_brackets_of_lookup found)
      split at read
      · rename_i missing isClosing
        cases due with
        | nil => cases read
        | cons closing due =>
          simp only at read
          split at read
          · rename_i same
            exact ⟨[], ls, by rw [same]; rfl, .nil, ih read⟩
          · cases read
      · rename_i missing other
        exact (ih read).cons (.sign c ⟨opens_eq_false_of_lookup missing, by simpa using other⟩)

/-- A text without brackets to close is nested. -/
theorem nested_of_unclosed {ls : List Lexeme} (read : unclosed [] ls = some []) : Nested ls :=
  closesAll_of_unclosed read

end Mintage.Text
