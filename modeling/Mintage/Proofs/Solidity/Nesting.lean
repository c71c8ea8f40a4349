import Mintage.Proofs.Solidity.Declares
import Mintage.Proofs.Solidity.Tidy
import Mintage.Proofs.Text.Plain

/-! The page of a program nests its brackets, and it declares the contracts of the program, none of
them within brackets. -/
namespace Mintage.Layout.Doc

open Solidity Text

theorem mem_lexemes_join {separator : Doc} {docs : List Doc} {l : Lexeme}
    (mem : l ∈ (join separator docs).lexemes) :
    l ∈ separator.lexemes ∨ ∃ doc ∈ docs, l ∈ doc.lexemes := by
  rw [join, lexemes_concat] at mem
  obtain ⟨doc, inside, here⟩ := List.mem_flatMap.1 mem
  rcases mem_of_mem_intersperse inside with rfl | listed
  · exact .inl here
  · exact .inr ⟨doc, listed, here⟩

theorem scans_join {separator : Doc} (between : separator.Scans .line .fresh) {docs : List Doc}
    (all : ∀ doc ∈ docs, doc.Scans .fresh .line) : (join separator docs).Scans .fresh .line := by
  unfold join
  match docs with
  | [] => exact (Scans.nil .fresh).weaken rfl rfl
  | [doc] => exact (all doc List.mem_cons_self).cons (.nil _)
  | first :: second :: docs =>
    have later := scans_join between fun doc mem => all doc (List.mem_cons_of_mem first mem)
    exact (all first List.mem_cons_self).cons (between.cons later)

theorem within_isWord {s : String} (word : isWord s = true) : (text s).Within .fresh .code := by
  refine fun due => .text ?_ ?_
  · rw [leads, run_isWord word]
    rfl
  · rw [lexemes_isWord word]
    exact ⟨rfl, by simp, by simp, by simp⟩

/-- The title of a contract declares it. -/
theorem scans_title {name : String} (word : isWord name = true) :
    (text ("contract " ++ name)).Scans .fresh .phrase ∧
      (text ("contract " ++ name)).lexemes = [.word "contract", .word name] := by
  have opens : Lexer.code.run "contract ".toList = ([.word "contract"], .code) := by decide
  have told : Lexer.code.run ("contract " ++ name).toList =
      ([.word "contract"], .word name.toList.reverse) := by
    rw [String.toList_append, Lexer.run_append, opens, run_isWord word]
    rfl
  refine ⟨scans_text ?_, ?_⟩
  · rw [leads, told]
    rfl
  · rw [lexemes_text, Text.lexemes, told]
    simp [Lexer.pending]

/-- On every page of a document that can be scanned the words and signs are those of its texts. -/
theorem lexemes_render {doc : Doc} {f : Edge} (scans : doc.Scans .fresh f) (width : Nat) :
    Text.lexemes (doc.render width).toList = doc.lexemes := by
  obtain ⟨ss, drawn, written⟩ := doc.exists_render width
  rw [Text.lexemes, written, run_spell]
  exact (scans 0 ss drawn .code rfl).2

end Mintage.Layout.Doc

namespace Mintage.Solidity

open Layout Text

namespace Contract

variable {c : Contract}

/-- A contract whose name and bases are words. -/
structure Named (c : Contract) : Prop where
  name : isWord c.name = true
  bases : ∀ base ∈ c.bases, isWord base = true

/-- The bases of a contract behind its name. -/
def inheritance (c : Contract) : List Doc :=
  if c.bases.isEmpty then []
  else [.text " is", .indent (.concat [.spaceLine, commas (c.bases.map .text)])]

theorem tidy_inheritance (named : c.Named) (due : List Char) :
    (Doc.concat (c.inheritance ++ [openBrace])).Tidy ⟨.phrase, due⟩ ⟨.fresh, '\x7d' :: due⟩ := by
  have brace : (Doc.concat [openBrace]).Tidy ⟨.code, due⟩ ⟨.fresh, '\x7d' :: due⟩ :=
    .cons (Doc.tidy_openBrace due) (.nil _)
  unfold inheritance
  split
  · exact brace.weaken rfl rfl
  · rename_i some
    have word := Doc.within_text (show Doc.passes .phrase [] .phrase [] " is" = true by decide) due
    have listed : (commas (c.bases.map .text)).Within .fresh .code := by
      refine Doc.within_commas (fun doc mem => ?_) (by simpa using some)
      obtain ⟨base, own, rfl⟩ := List.mem_map.1 mem
      exact Doc.within_isWord (named.bases base own)
    have bases : (Doc.concat [.spaceLine, commas (c.bases.map .text)]).Tidy ⟨.phrase, due⟩
        ⟨.code, due⟩ := .cons (Doc.within_spaceLine due) (.cons (listed due) (.nil _))
    exact .cons word (.cons bases.indent brace)

/-- Whatever stands between the braces of a contract. -/
theorem within_body (all : ∀ m ∈ c.body, ∀ piece ∈ m.pieces, isTidy piece = true) :
    ∀ doc ∈ c.body.map Member.doc, doc.Within .fresh .line := by
  intro doc mem
  obtain ⟨m, listed, rfl⟩ := List.mem_map.1 mem
  exact Doc.within_member (all m listed)

/-- A contract without its title. -/
def rest (c : Contract) : Doc :=
  .concat (c.inheritance ++ [openBrace, blockTail .blankLine (c.body.map Member.doc)])

/-- Behind its title a contract opens one brace and closes it again. -/
theorem within_rest (named : c.Named)
    (all : ∀ m ∈ c.body, ∀ piece ∈ m.pieces, isTidy piece = true) :
    c.rest.Within .phrase .fresh := by
  intro due
  have front := tidy_inheritance named due
  have body := Doc.tidy_blockTail Doc.within_blankLine (within_body all) due
  have whole : (Doc.concat ((c.inheritance ++ [openBrace]) ++
      [blockTail .blankLine (c.body.map Member.doc)])).Tidy ⟨.phrase, due⟩ ⟨.fresh, due⟩ :=
    front.append (.cons body (.nil _))
  rwa [List.append_assoc] at whole

theorem scans_doc (named : c.Named)
    (all : ∀ m ∈ c.body, ∀ piece ∈ m.pieces, isTidy piece = true) :
    c.doc.Scans .fresh .fresh := by
  have title := (Doc.scans_title named.name).1
  have header : c.header.Scans .fresh .fresh := fun indent ss drawn =>
    (title.cons (tidy_inheritance named []).scans) indent ss drawn
  have body := (Doc.tidy_blockTail Doc.within_blankLine (within_body all) []).scans
  exact header.cons (body.cons (.nil _))

theorem lexemes_doc (named : c.Named) :
    c.doc.lexemes = .word "contract" :: .word c.name :: c.rest.lexemes := by
  have title := (Doc.scans_title named.name).2
  have header : c.header.lexemes = .word "contract" :: .word c.name ::
      (Doc.concat (c.inheritance ++ [openBrace])).lexemes := by
    have parts := Doc.lexemes_concat (.text ("contract " ++ c.name) ::
      (c.inheritance ++ [openBrace]))
    rw [List.flatMap_cons, title, ← Doc.lexemes_concat] at parts
    exact parts
  rw [doc, Doc.lexemes_concat, List.flatMap_cons, header, rest]
  simp [Doc.lexemes_concat]

/-- A contract declares itself. -/
theorem declares_doc (named : c.Named)
    (all : ∀ m ∈ c.body, ∀ piece ∈ m.pieces, isTidy piece = true) :
    Declares [c.name] c.doc.lexemes := by
  have fits := (within_rest named all []).fits
  rw [lexemes_doc named]
  refine ⟨fits.closes, fun ms => ?_⟩
  have later := contracts_append ms fits.closes fits.quiet fun last =>
    absurd last (fits.ends (by decide))
  rw [List.cons_append, List.cons_append, contracts, if_pos rfl]
  exact congrArg _ later

/-- Between the name of a contract and its body no brace is opened. -/
theorem notMem_inheritance (named : c.Named) :
    .sign '\x7b' ∉ c.inheritance.flatMap Doc.lexemes := by
  unfold inheritance
  split
  · exact List.not_mem_nil
  · have word : (Doc.text " is").lexemes = [.word "is"] := by decide
    have listed : (Doc.indent (.concat [.spaceLine, commas (c.bases.map .text)])).lexemes =
        (Doc.concat [.spaceLine, commas (c.bases.map .text)]).lexemes := rfl
    have space : Doc.spaceLine.lexemes = [] := rfl
    rw [List.flatMap_cons, List.flatMap_singleton, word, listed, Doc.lexemes_concat]
    simp only [List.flatMap_cons, List.flatMap_nil, List.append_nil, space, List.nil_append]
    intro mem
    rcases List.mem_append.1 mem with mem | mem
    · simp at mem
    · rcases Doc.mem_lexemes_join mem with mem | ⟨doc, own, mem⟩
      · exact absurd mem (by decide)
      · obtain ⟨base, based, rfl⟩ := List.mem_map.1 own
        rw [Doc.lexemes_text, lexemes_isWord (named.bases base based)] at mem
        simp at mem

/-- A text that ends with a contract ends with the brace that closes its body. -/
theorem endsWith_doc (named : c.Named)
    (all : ∀ m ∈ c.body, ∀ piece ∈ m.pieces, isTidy piece = true) {before : List Lexeme}
    (nested : Nested before) : EndsWith c.name (before ++ c.doc.lexemes) := by
  have inside : Declares (c.body.flatMap fun _ => []) (c.body.flatMap fun m => m.doc.lexemes) :=
    Declares.flatMap fun m mem => by
      have within := within_body all m.doc (List.mem_map_of_mem mem) []
      exact .of_fits within.fits (by decide)
  refine ⟨before, c.inheritance.flatMap Doc.lexemes, c.body.flatMap fun m => m.doc.lexemes, ?_,
    nested, notMem_inheritance named, nested_of_unclosed inside.closes⟩
  have braces : Text.lexemes " \x7b".toList = [.sign '\x7b'] ∧
      Text.lexemes "\x7d".toList = [.sign '\x7d'] := by decide
  have body : (blockTail .blankLine (c.body.map Member.doc)).lexemes =
      (c.body.flatMap fun m => m.doc.lexemes) ++ [.sign '\x7d'] := by
    rw [Doc.lexemes, Doc.gather_blockTail rfl, braces.2, List.flatMap_map]
    rfl
  have opened : openBrace.lexemes = [.sign '\x7b'] := Doc.gather_openBrace.trans braces.1
  rw [lexemes_doc named, rest, Doc.lexemes_concat, List.flatMap_append, List.flatMap_cons, opened,
    List.flatMap_singleton, body]
  rfl

end Contract

namespace Item

/-- The names of the contracts that an item declares. -/
def declares : Item → List String
  | contract c => [c.name]
  | comment _ => []

/-- The names of the item are words and its pieces are tidy. -/
def Orderly : Item → Prop
  | contract c => c.Named ∧ ∀ m ∈ c.body, ∀ piece ∈ m.pieces, isTidy piece = true
  | comment c => ∀ piece ∈ c.pieces, isTidy piece = true

variable {i : Item}

theorem scans_doc (orderly : i.Orderly) : i.doc.Scans .fresh .line := by
  cases i with
  | contract c => exact (Contract.scans_doc orderly.1 orderly.2).weaken rfl rfl
  | comment c => exact (Doc.within_comment orderly []).scans

theorem declares_doc (orderly : i.Orderly) : Declares i.declares i.doc.lexemes := by
  cases i with
  | contract c => exact Contract.declares_doc orderly.1 orderly.2
  | comment c => exact .of_fits (Doc.within_comment orderly []).fits (by decide)

end Item

namespace Program

variable {p : Program}

/-- All items are orderly, and so is what stands in front of them. -/
structure Orderly (p : Program) : Prop where
  license : ∀ license ∈ p.license, isTidy (.line, license) = true
  pragma : ∀ version ∈ p.pragma, isTidy (.code, version) = true
  items : ∀ i ∈ p.body, i.Orderly

theorem within_preamble (orderly : p.Orderly) : ∀ doc ∈ p.preamble, doc.Within .fresh .line := by
  have semicolon (t : String) (tidy : (Doc.text t).Within .fresh .code) :
      (Doc.text (t ++ ";")).Within .fresh .fresh :=
    fun due => .joined (tidy due) (Doc.within_semicolon due)
  simp only [preamble, List.forall_mem_append, Option.mem_toList]
  refine ⟨⟨fun doc mem => ?_, fun doc mem => ?_⟩, fun doc mem => ?_⟩
  · obtain ⟨license, own, rfl⟩ := Option.map_eq_some_iff.1 mem
    exact Doc.within_note (by decide) (orderly.license license own)
  · obtain ⟨version, own, rfl⟩ := Option.map_eq_some_iff.1 mem
    have word : (Doc.text "pragma solidity ").Within .fresh .fresh := Doc.within_text (by decide)
    refine (semicolon _ fun due => ?_).weaken rfl rfl
    exact .joined (word due) (Doc.within_text (orderly.pragma version own) due)
  · obtain ⟨path, -, rfl⟩ := List.mem_map.1 mem
    have word : (Doc.text "import ").Within .fresh .fresh := Doc.within_text (by decide)
    have literal := Doc.within_quoted path
    have statement : (Doc.text ("import " ++ Text.quoted path)).Within .fresh .fresh :=
      fun due => .joined (word due) (literal due)
    exact (semicolon _ (statement.weaken rfl rfl)).weaken rfl rfl

/-- Preamble and contracts are read one after the other, since each of them ends with a line. -/
theorem scans_content (orderly : p.Orderly) : p.content.Scans .fresh .line := by
  have preamble (doc : Doc) (mem : doc ∈ p.preamble) : doc.Scans .fresh .line :=
    (within_preamble orderly doc mem []).scans
  have blank := (Doc.within_blankLine []).scans
  have feed := (Doc.within_hardLine []).scans
  have sections : ∀ part ∈ p.sections, part.1.Scans .line .fresh ∧
      ∀ doc ∈ part.2, doc.Scans .fresh .line := by
    simp only [Program.preamble, List.mem_append] at preamble
    simp only [Program.sections, List.forall_mem_cons, List.not_mem_nil]
    refine ⟨⟨feed, fun doc mem => ?_⟩, ⟨feed, fun doc mem => ?_⟩, ⟨blank, fun doc mem => ?_⟩, nofun⟩
    · exact preamble doc (.inl (List.mem_append.1 mem))
    · exact preamble doc (.inr mem)
    · obtain ⟨i, listed, rfl⟩ := List.mem_map.1 mem
      exact i.scans_doc (orderly.items i listed)
  refine Doc.scans_join blank fun doc mem => ?_
  obtain ⟨part, kept, rfl⟩ := List.mem_map.1 mem
  obtain ⟨between, all⟩ := sections part (List.mem_filter.1 kept).1
  exact Doc.scans_join between all

theorem scans_doc (orderly : p.Orderly) : p.doc.Scans .fresh .fresh :=
  (scans_content orderly).cons ((Doc.within_hardLine []).scans.cons (.nil _))

/-- Nothing in front of the contracts declares one: license, version and imports are comments and
single statements. -/
theorem declares_preamble (orderly : p.Orderly) :
    Declares [] (p.preamble.flatMap Doc.lexemes) := by
  have all : Declares (p.preamble.flatMap fun _ => []) (p.preamble.flatMap Doc.lexemes) :=
    Declares.flatMap fun doc mem => .of_fits (within_preamble orderly doc mem []).fits (by decide)
  have none : (p.preamble.flatMap fun _ => ([] : List String)) = [] :=
    List.flatMap_eq_nil_iff.2 fun _ _ => rfl
  rwa [none] at all

/-- The contracts of a program are declared outside of all brackets. -/
theorem declares_doc (orderly : p.Orderly) :
    Declares (p.body.flatMap Item.declares) p.doc.lexemes := by
  rw [Doc.lexemes, gather_doc]
  exact (declares_preamble orderly).append
    (Declares.flatMap fun i mem => Item.declares_doc (orderly.items i mem))

end Program

end Mintage.Solidity
