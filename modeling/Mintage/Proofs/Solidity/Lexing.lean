import Mathlib.Data.List.Chain
import Mintage.Proofs.Solidity.Gathering
import Mintage.Proofs.Text.Lexeme

/-! The words and signs of a page are those of the texts of its document, wherever the lines are
broken. -/
namespace Mintage.Solidity

open Layout Text

/-- What may be pending behind a text, and with it what may follow. -/
inductive Edge where
  /-- Nothing is pending. -/
  | fresh
  /-- A word may be pending, but not the word `contract`. -/
  | phrase
  /-- Any word may be pending, so that a sign has to follow. -/
  | code
  /-- A comment may go on to the end of the line. -/
  | line
  deriving DecidableEq, Repr

namespace Edge

def admits (e : Edge) : Lexer → Bool
  | .code => true
  | .word _ => e != fresh
  | .slash => e != fresh
  | .note => e == line
  | _ => false

/-- The second edge allows at least what the first allows. -/
def le : Edge → Edge → Bool
  | fresh, _ => true
  | phrase, e => e != fresh
  | code, e => e == code
  | line, e => e == line

theorem le_refl (e : Edge) : e.le e = true := by cases e <;> rfl

theorem admits_code (e : Edge) : e.admits .code = true := rfl

/-- An edge that allows more has every lexer that one with less has. -/
theorem admits_of_le {e f : Edge} (le : e.le f = true) {q : Lexer} (admitted : e.admits q = true) :
    f.admits q = true := by
  cases q with
  | code => rfl
  | word run | slash => cases e <;> cases f <;> simp_all [admits, Edge.le]
  | note => cases e <;> cases f <;> simp_all [admits, Edge.le]
  | _ => cases admitted

theorem admits_line {e : Edge} {q : Lexer} (admitted : e.admits q = true) :
    line.admits q = true := by
  cases q with
  | literal | escaped | block | star => cases admitted
  | _ => rfl

theorem eq_code_of_le {e f : Edge} (le : e.le f = true) (code : e = .code) : f = .code := by
  subst code
  simpa [Edge.le] using le

end Edge

/-- A place between two texts: what may be pending, and which brackets are to close behind it. -/
structure Point where
  edge : Edge
  due : List Char

def isSign : Lexeme → Bool
  | .sign _ => true
  | .word _ => false

/-- The two do not declare a contract. -/
def apart (first second : Lexeme) : Bool := first != .word "contract" || isSign second

/-- The words and signs lead from one point to the other, and no contract is declared between
them. -/
structure Fits (a b : Point) (ls : List Lexeme) : Prop where
  closes : unclosed a.due ls = some b.due
  quiet : ls.IsChain fun first second => apart first second = true
  starts : a.edge = .code → ls.head?.any isSign = true ∨ ls = [] ∧ b.edge = .code
  ends : b.edge ≠ .code → ls.getLast? ≠ some (.word "contract")

instance (a b : Point) (ls : List Lexeme) : Decidable (Fits a b ls) :=
  decidable_of_iff
    (unclosed a.due ls = some b.due ∧ (ls.IsChain fun first second => apart first second = true) ∧
      (a.edge = .code → ls.head?.any isSign = true ∨ ls = [] ∧ b.edge = .code) ∧
      (b.edge ≠ .code → ls.getLast? ≠ some (.word "contract")))
    ⟨fun ⟨closes, quiet, starts, ends⟩ => ⟨closes, quiet, starts, ends⟩,
      fun fits => ⟨fits.closes, fits.quiet, fits.starts, fits.ends⟩⟩

namespace Fits

variable {a b c : Point} {ls ms : List Lexeme}

/-- Where nothing is written, an edge that needs a sign still needs it behind. -/
theorem nil (due : List Char) {e f : Edge} (code : e = .code → f = .code) :
    Fits ⟨e, due⟩ ⟨f, due⟩ [] :=
  ⟨rfl, .nil, fun same => .inr ⟨rfl, code same⟩, fun _ => by simp⟩

/-- Two stretches fit together at the point where they meet: what the first one leaves open the
second one has to close, and the word `contract` cannot end the first and be taken up by the second.
-/
theorem append (first : Fits a b ls) (second : Fits b c ms) : Fits a c (ls ++ ms) := by
  refine ⟨?_, ?_, fun code => ?_, fun other => ?_⟩
  · rw [unclosed_append, first.closes]
    exact second.closes
  · refine List.isChain_append.2 ⟨first.quiet, second.quiet, fun x last y head => ?_⟩
    by_cases edge : b.edge = .code
    · rcases second.starts edge with sign | ⟨empty, -⟩
      · rw [head, Option.any_some] at sign
        simp [apart, sign]
      · rw [empty] at head
        cases head
    · have plain := first.ends edge
      rw [last] at plain
      simp only [ne_eq, Option.some.injEq] at plain
      simp [apart, plain]
  · rcases first.starts code with sign | ⟨rfl, edge⟩
    · cases ls with
      | nil => simp at sign
      | cons l ls => exact .inl sign
    · exact second.starts edge
  · cases ms with
    | nil =>
      rw [List.append_nil]
      refine first.ends fun edge => ?_
      rcases second.starts edge with sign | ⟨-, same⟩
      · simp at sign
      · exact other same
    | cons m ms =>
      rw [List.getLast?_append_of_ne_nil _ (List.cons_ne_nil m ms)]
      exact second.ends other

/-- In front, less may be pending than is allowed for; behind, more may be allowed for than is
pending. -/
theorem weaken {e e' f f' : Edge} {due due' : List Char} (fits : Fits ⟨e, due⟩ ⟨f, due'⟩ ls)
    (start : e'.le e = true) (finish : f.le f' = true) : Fits ⟨e', due⟩ ⟨f', due'⟩ ls := by
  refine ⟨fits.closes, fits.quiet, fun code => ?_, fun other => fits.ends fun code => ?_⟩
  · refine (fits.starts (Edge.eq_code_of_le start code)).imp_right fun ⟨empty, code⟩ => ?_
    exact ⟨empty, Edge.eq_code_of_le finish code⟩
  · exact other (Edge.eq_code_of_le finish code)

/-- The brackets of the surroundings do not matter. -/
theorem under {e f : Edge} {due due' : List Char} (fits : Fits ⟨e, due⟩ ⟨f, due'⟩ ls)
    (outer : List Char) : Fits ⟨e, due ++ outer⟩ ⟨f, due' ++ outer⟩ ls :=
  ⟨unclosed_frame outer fits.closes, fits.quiet, fits.starts, fits.ends⟩

end Fits

/-- All characters that strokes write, with the spaces at the ends of lines. -/
def rawChars (ss : List Stroke) : List Char := ss.flatMap Stroke.chars

theorem rawChars_append (ss more : List Stroke) :
    rawChars (ss ++ more) = rawChars ss ++ rawChars more := List.flatMap_append

theorem rawChars_text (s : String) : rawChars [.text s] = s.toList := List.append_nil _

/-- The spaces at the ends of lines do not matter to a reader. -/
theorem run_spell (ss : List Stroke) (q : Lexer) : q.run (spell ss) = q.run (rawChars ss) := by
  induction ss generalizing q with
  | nil => rfl
  | cons stroke ss ih =>
    have later (cs : List Char) : q.run (cs ++ spell ss) = q.run (cs ++ rawChars ss) := by
      rw [Lexer.run_append, ih, ← Lexer.run_append]
    rw [rawChars, List.flatMap_cons, ← rawChars, ← later, spell]
    cases ends : endsLine ss with
    | false => rfl
    | true =>
      obtain ⟨cs, feed⟩ := exists_spell_of_endsLine ends
      obtain ⟨n, split⟩ := exists_eq_unpadded_append stroke.chars
      conv => rhs; rw [split]
      rw [if_pos rfl, feed, List.append_assoc, Lexer.run_append, Lexer.run_append,
        Lexer.run_spaces_newLine]

end Mintage.Solidity

namespace Mintage.Layout

open Solidity Text

namespace Doc

/-- The words and signs of the texts of a document. -/
def lexemes (doc : Doc) : List Lexeme := doc.gather fun t => Text.lexemes t.toList

/-- Behind the first edge the document is read as the words and signs of its texts, wherever its
lines are broken, and the second edge follows. -/
def Scans (e f : Edge) (doc : Doc) : Prop :=
  ∀ indent ss, doc.Draws indent ss → ∀ q, e.admits q = true →
    f.admits (q.run (rawChars ss)).2 = true ∧
      (q.run (rawChars ss)).1 ++ (q.run (rawChars ss)).2.pending = q.pending ++ doc.lexemes

/-- The document leads from one point to the other and declares no contract. -/
structure Tidy (a b : Point) (doc : Doc) : Prop where
  scans : doc.Scans a.edge b.edge
  fits : Fits a b doc.lexemes

theorem lexemes_concat (docs : List Doc) : (concat docs).lexemes = docs.flatMap lexemes :=
  gather_concat docs

theorem lexemes_concat_append (docs more : List Doc) :
    (concat (docs ++ more)).lexemes = (concat docs).lexemes ++ (concat more).lexemes := by
  simp only [lexemes_concat, List.flatMap_append]

namespace Scans

variable {e f g : Edge} {doc : Doc} {docs : List Doc}

theorem nil (e : Edge) : (concat []).Scans e e := by
  intro indent ss drawn q admitted
  cases drawn
  refine ⟨admitted, ?_⟩
  simp [rawChars, lexemes]

/-- What is pending behind the first documents is read on by the rest, so nothing is lost where they
meet. -/
theorem append {more : List Doc} (first : (concat docs).Scans e f)
    (rest : (concat more).Scans f g) : (concat (docs ++ more)).Scans e g := by
  intro indent ss drawn q admitted
  obtain ⟨front, back, here, later, rfl⟩ := drawsAll_append drawn
  obtain ⟨between, told⟩ := first indent front here q admitted
  obtain ⟨behind, toldMore⟩ := rest indent back later _ between
  rw [rawChars_append, Lexer.run_append]
  refine ⟨behind, ?_⟩
  dsimp only
  rw [List.append_assoc, toldMore, ← List.append_assoc, told, List.append_assoc,
    lexemes_concat_append]

theorem cons (first : doc.Scans e f) (rest : (concat docs).Scans f g) :
    (concat (doc :: docs)).Scans e g := by
  have alone : (concat [doc]).Scans e f := by
    rintro indent ss ⟨drawn, _, here, rfl, rfl⟩
    rw [List.append_nil, lexemes_concat, List.flatMap_singleton]
    exact first indent drawn here
  exact alone.append rest

theorem weaken {e' f' : Edge} (scans : doc.Scans e f) (start : e'.le e = true)
    (finish : f.le f' = true) : doc.Scans e' f' := by
  intro indent ss drawn q admitted
  obtain ⟨behind, told⟩ := scans indent ss drawn q (Edge.admits_of_le start admitted)
  exact ⟨Edge.admits_of_le finish behind, told⟩

end Scans

/-- Whether a text with this start is read alike whatever is pending in front of it. -/
def standsApart (t : String) : Bool :=
  match t.toList with
  | [] => false
  | c :: _ => !isPlain c && c != '/' && c != '*'

/-- Whether a text leads from one edge to another. -/
def leads (e f : Edge) (t : String) : Bool :=
  (e == .fresh || (e != .line && standsApart t)) && f.admits (Lexer.code.run t.toList).2

/-- In front of a sign the pending word is done, whichever it is, and the sign is read as at the
start. -/
theorem run_standsApart {t : String} (apart : standsApart t = true) {e : Edge} (other : e ≠ .line)
    {q : Lexer} (admitted : e.admits q = true) :
    q.run t.toList = (q.pending ++ (Lexer.code.run t.toList).1, (Lexer.code.run t.toList).2) := by
  unfold standsApart at apart
  cases chars : t.toList with
  | nil =>
    rw [chars] at apart
    cases apart
  | cons c cs =>
    rw [chars] at apart
    simp only [Bool.and_eq_true, Bool.not_eq_true', bne_iff_ne, ne_eq] at apart
    obtain ⟨⟨notPlain, notSlash⟩, notStar⟩ := apart
    rw [Lexer.run_cons, Lexer.run_cons]
    cases q with
    | code => rfl
    | word run => simp [Lexer.step, Lexer.pending, notPlain]
    | slash => simp [Lexer.step, Lexer.pending, notSlash, notStar]
    | note => simp [Edge.admits, other] at admitted
    | _ => cases admitted

theorem lexemes_text (t : String) : (text t).lexemes = Text.lexemes t.toList := gather_text t

/-- A text either starts where nothing is pending, or its first character ends what is. -/
theorem scans_text {e f : Edge} {t : String} (read : leads e f t = true) : (text t).Scans e f := by
  rintro indent ss rfl q admitted
  simp only [leads, Bool.and_eq_true, Bool.or_eq_true, beq_iff_eq, bne_iff_ne, ne_eq] at read
  rw [lexemes_text, rawChars_text]
  rcases read with ⟨fresh | ⟨other, apart⟩, behind⟩
  · rw [fresh] at admitted
    have ready : q = .code := by
      cases q <;> first | rfl | cases admitted
    rw [ready]
    exact ⟨behind, rfl⟩
  · rw [run_standsApart apart other admitted]
    exact ⟨behind, List.append_assoc ..⟩

namespace Tidy

variable {a b c : Point} {e e' f f' : Edge} {due due' : List Char} {doc : Doc} {docs : List Doc}

theorem nil (a : Point) : (concat []).Tidy a a :=
  ⟨.nil _, .nil a.due id⟩

theorem weaken (tidy : doc.Tidy ⟨e, due⟩ ⟨f, due'⟩) (start : e'.le e = true)
    (finish : f.le f' = true) : doc.Tidy ⟨e', due⟩ ⟨f', due'⟩ :=
  ⟨tidy.scans.weaken start finish, tidy.fits.weaken start finish⟩

theorem cons (first : doc.Tidy a b) (rest : (concat docs).Tidy b c) :
    (concat (doc :: docs)).Tidy a c := by
  refine ⟨first.scans.cons rest.scans, ?_⟩
  rw [lexemes_concat, List.flatMap_cons, ← lexemes_concat]
  exact first.fits.append rest.fits

theorem append {more : List Doc} (first : (concat docs).Tidy a b) (rest : (concat more).Tidy b c) :
    (concat (docs ++ more)).Tidy a c := by
  refine ⟨first.scans.append rest.scans, ?_⟩
  rw [lexemes_concat_append]
  exact first.fits.append rest.fits

theorem under (tidy : doc.Tidy ⟨e, due⟩ ⟨f, due'⟩) (outer : List Char) :
    doc.Tidy ⟨e, due ++ outer⟩ ⟨f, due' ++ outer⟩ :=
  ⟨tidy.scans, tidy.fits.under outer⟩

theorem indent (tidy : doc.Tidy a b) : (Doc.indent doc).Tidy a b :=
  ⟨fun _ ss drawn => tidy.scans _ ss drawn, tidy.fits⟩

theorem grouped (tidy : doc.Tidy a b) : (Doc.grouped doc).Tidy a b :=
  ⟨fun _ ss drawn => tidy.scans _ ss drawn, tidy.fits⟩

/-- For a text both conditions can be checked by evaluation. -/
theorem text {t : String} (read : leads a.edge b.edge t = true)
    (fits : Fits a b (Text.lexemes t.toList)) : (Doc.text t).Tidy a b :=
  ⟨scans_text read, lexemes_text t ▸ fits⟩

/-- Texts that are put together without a break. -/
theorem joined {s t : String} (first : (Doc.text s).Tidy a b) (second : (Doc.text t).Tidy b c) :
    (Doc.text (s ++ t)).Tidy a c := by
  have tidy : (concat [Doc.text s, Doc.text t]).Tidy a c := first.cons (second.cons (.nil c))
  have drawn (indent : Nat) :
      (concat [Doc.text s, Doc.text t]).Draws indent [.text s, .text t] :=
    ⟨[.text s], [.text t], rfl, ⟨[.text t], [], rfl, rfl, rfl⟩, rfl⟩
  have chars : rawChars [.text s, .text t] = rawChars [.text (s ++ t)] := by
    simp [rawChars, Stroke.chars]
  have same : (Doc.text (s ++ t)).lexemes = (concat [Doc.text s, Doc.text t]).lexemes := by
    have told := (tidy.scans 0 _ (drawn 0) .code a.edge.admits_code).2
    rw [chars, rawChars_text] at told
    rw [lexemes_text]
    exact told
  refine ⟨?_, same ▸ tidy.fits⟩
  rintro indent ss rfl q admitted
  rw [same, ← chars]
  exact tidy.scans indent _ (drawn indent) q admitted

end Tidy

/-- The end of a line ends words and comments, and the indentation behind it adds nothing. -/
theorem run_newLine {q : Lexer} (admitted : Edge.line.admits q = true) (n : Nat) :
    q.run ('\n' :: List.replicate n ' ') = (q.pending, .code) := by
  have spaces : Lexer.code.run (List.replicate n ' ') = ([], .code) := by
    induction n with
    | zero => rfl
    | succ n ih =>
      have space : Lexer.code.step ' ' = ([], .code) := by decide
      rw [List.replicate_succ, Lexer.run_cons, space, ih]
      rfl
  have feed : Lexer.start '\n' = ([], .code) := by decide
  have notPlain : isPlain '\n' = false := by decide
  rw [Lexer.run_cons]
  cases q with
  | literal | escaped | block | star => cases admitted
  | _ => simp [Lexer.step, Lexer.pending, notPlain, feed, spaces]

/-- A space ends a word. In a comment it would end nothing, hence the condition. -/
theorem run_space {q : Lexer} (admitted : Edge.code.admits q = true) :
    q.run [' '] = (q.pending, .code) := by
  have space : Lexer.start ' ' = ([], .code) := by decide
  have notPlain : isPlain ' ' = false := by decide
  cases q with
  | literal | escaped | note | block | star => cases admitted
  | _ => simp [Lexer.run_cons, Lexer.step, Lexer.pending, notPlain, space]

theorem rawChars_newLine (indent : Nat) :
    rawChars [.newLine indent] = '\n' :: List.replicate indent ' ' := by
  simp [rawChars, Stroke.chars]

theorem lexemes_line (kind : Line) : (line kind).lexemes = [] := rfl

/-- Behind a line feed nothing is pending. -/
theorem scans_line {kind : Line} {e f : Edge}
    (unbroken : ∀ ss, kind.unbroken? = some ss → ∀ q, e.admits q = true →
      f.admits (q.run (rawChars ss)).2 = true ∧
        (q.run (rawChars ss)).1 ++ (q.run (rawChars ss)).2.pending = q.pending) :
    (line kind).Scans e f := by
  intro indent ss drawn q admitted
  rw [lexemes_line, List.append_nil]
  rcases drawn with rfl | flat
  · rw [rawChars_newLine, run_newLine (Edge.admits_line admitted)]
    exact ⟨f.admits_code, List.append_nil _⟩
  · exact unbroken ss flat q admitted

/-- A space line is a space or a line end, and both end the pending word. -/
theorem scans_spaceLine : spaceLine.Scans .code .fresh := by
  refine scans_line fun ss flat q admitted => ?_
  cases flat
  have chars : rawChars [.space] = [' '] := rfl
  rw [chars, run_space admitted]
  exact ⟨rfl, List.append_nil _⟩

/-- The document leads from the first edge to the second and closes its own brackets. -/
def Within (e f : Edge) (doc : Doc) : Prop := ∀ due, doc.Tidy ⟨e, due⟩ ⟨f, due⟩

theorem within_hardLine : hardLine.Within .line .fresh :=
  fun due => ⟨scans_line nofun, .nil due nofun⟩

theorem within_spaceLine : spaceLine.Within .phrase .fresh :=
  fun due => ⟨scans_spaceLine.weaken rfl rfl, .nil due nofun⟩

/-- A soft line that is not broken writes nothing, so the edge behind it is the one in front. -/
theorem within_softLine (e : Edge) : softLine.Within e e := by
  refine fun due => ⟨scans_line fun ss flat q admitted => ?_, .nil due id⟩
  cases flat
  exact ⟨admitted, rfl⟩

theorem within_blankLine : blankLine.Within .line .fresh := fun due =>
  .cons (within_hardLine due) (.cons ((within_hardLine due).weaken rfl rfl) (.nil _))

/-- Whether a text leads from one point to the other. -/
def passes (e : Edge) (d : List Char) (f : Edge) (d' : List Char) (t : String) : Bool :=
  leads e f t && decide (Fits ⟨e, d⟩ ⟨f, d'⟩ (Text.lexemes t.toList))

/-- Brackets that are open further out stay open behind a text that passes. -/
theorem tidy_text {e f : Edge} {d d' : List Char} {t : String} (passed : passes e d f d' t = true)
    (due : List Char) : (text t).Tidy ⟨e, d ++ due⟩ ⟨f, d' ++ due⟩ := by
  rw [passes, Bool.and_eq_true, decide_eq_true_eq] at passed
  exact (Tidy.text passed.1 passed.2).under due

variable {e f : Edge} {items : List Doc}

/-- Between any two items stands the separator, so one pass over the items is enough. -/
theorem within_join {separator : Doc} (between : separator.Within f e) {items : List Doc}
    (all : ∀ item ∈ items, item.Within e f) (some : items ≠ []) :
    (join separator items).Within e f := by
  intro due
  unfold join
  match items with
  | [] => exact absurd rfl some
  | [item] => exact .cons (all item List.mem_cons_self due) (.nil _)
  | first :: second :: items =>
    rw [List.intersperse_cons_cons]
    have later : (join separator (second :: items)).Within e f :=
      within_join between (fun item mem => all item (List.mem_cons_of_mem _ mem))
        (List.cons_ne_nil second items)
    exact .cons (all first List.mem_cons_self due) (.cons (between due) (later due))

/-- A comma is a sign, so a word may be pending in front of it. -/
theorem within_commas (all : ∀ item ∈ items, item.Within .fresh .code) (some : items ≠ []) :
    (commas items).Within .fresh .code := by
  refine within_join (fun due => ?_) all some
  exact .cons (tidy_text (show passes .code [] .phrase [] "," = true by decide) due)
    (.cons (within_spaceLine due) (.nil _))

/-- Items in brackets stand behind a word, and any text may follow. -/
theorem within_bracketed {opening closing : String} {d : List Char}
    (opens : passes .code [] .fresh d opening = true)
    (closes : passes .code d .fresh [] closing = true)
    (all : ∀ item ∈ items, item.Within .fresh .code) :
    (bracketed opening closing items).Within .code .fresh := by
  intro due
  unfold bracketed
  have start := tidy_text opens due
  have finish := tidy_text closes due
  split
  · exact .joined start (finish.weaken rfl rfl)
  · rename_i some
    have inside : (concat [softLine, commas items]).Tidy ⟨.fresh, d ++ due⟩ ⟨.code, d ++ due⟩ :=
      .cons (within_softLine .fresh _) (.cons (within_commas all (by simpa using some) _) (.nil _))
    exact .grouped (.cons start (.cons inside.indent (.cons (within_softLine .code _)
      (.cons finish (.nil _)))))

/-- A brace is opened either in the same line or alone in the next one, and is due from there on. -/
theorem tidy_openBrace (due : List Char) :
    openBrace.Tidy ⟨.code, due⟩ ⟨.fresh, '\x7d' :: due⟩ := by
  have brace := tidy_text (show passes .code [] .fresh ['\x7d'] " \x7b" = true by decide) due
  have own : Doc.Scans .code .fresh (concat [spaceLine, text "\x7b"]) :=
    scans_spaceLine.cons ((scans_text (by decide)).cons (.nil .fresh))
  have same : (concat [spaceLine, text "\x7b"]).lexemes = (text " \x7b").lexemes := by decide
  refine ⟨?_, brace.fits⟩
  intro indent ss drawn q admitted
  rcases drawn with broken | flat
  · have read := own indent ss broken q admitted
    rw [same] at read
    exact read
  · exact brace.scans indent ss flat q admitted

/-- The tail of a block closes the one brace that is due when it starts. -/
theorem tidy_blockTail {separator : Doc} (between : separator.Within .line .fresh)
    (all : ∀ item ∈ items, item.Within .fresh .line) (due : List Char) :
    (blockTail separator items).Tidy ⟨.fresh, '\x7d' :: due⟩ ⟨.fresh, due⟩ := by
  have brace := tidy_text (show passes .fresh ['\x7d'] .fresh [] "\x7d" = true by decide) due
  unfold blockTail
  split
  · exact brace
  · rename_i some
    have inside : (concat [hardLine, join separator items]).Within .line .line := fun due =>
      .cons (within_hardLine due)
        (.cons (within_join between all (by simpa using some) due) (.nil _))
    have front : (indent (concat [hardLine, join separator items])).Tidy
        ⟨.fresh, '\x7d' :: due⟩ ⟨.line, '\x7d' :: due⟩ := (inside _).indent.weaken rfl rfl
    exact .cons front (.cons (within_hardLine _) (.cons brace (.nil _)))

theorem within_block (all : ∀ item ∈ items, item.Within .fresh .line) :
    (block items).Within .fresh .fresh := by
  intro due
  have brace := tidy_text (show passes .fresh [] .fresh ['\x7d'] "\x7b" = true by decide) due
  exact .cons brace (.cons (tidy_blockTail within_blankLine all due) (.nil _))

/-- A sign has to follow the left operand, and the operator is one. -/
theorem within_operation {left right : Doc} {operator : String}
    (tidyLeft : left.Within .fresh .code)
    (sign : passes .code [] .phrase [] (" " ++ operator) = true)
    (tidyRight : right.Within .fresh .code) :
    (operation left operator right).Within .fresh .code := by
  intro due
  have inside : (concat [spaceLine, right]).Tidy ⟨.phrase, due⟩ ⟨.code, due⟩ :=
    .cons (within_spaceLine due) (.cons (tidyRight due) (.nil _))
  exact .grouped (.cons (tidyLeft due) (.cons (tidy_text sign due) (.cons inside.indent (.nil _))))

theorem within_operand {doc : Doc} (tidy : doc.Within .fresh .code) (compound : Bool) :
    (operand compound doc).Within .fresh .code := by
  intro due
  have opened := tidy_text (show passes .fresh [] .fresh [')'] "(" = true by decide) due
  have closed := tidy_text (show passes .code [')'] .fresh [] ")" = true by decide) due
  unfold operand
  split
  · have enclosed : (concat [text "(", doc, text ")"]).Tidy ⟨.fresh, due⟩ ⟨.fresh, due⟩ :=
      .cons opened (.cons (tidy _) (.cons closed (.nil _)))
    exact enclosed.weaken rfl rfl
  · exact tidy due

end Doc

end Mintage.Layout
