import Mathlib.Data.List.Chain
import Mintage.Proofs.Template.Grammar

/-! Templates are read exactly: which texts are refused, and that reading and writing lose nothing
but empty slots and gain nothing but a last closing brace. -/
namespace Mintage.Template

section

variable {name run text rest : List Char}

/-- A row of characters without braces of its place goes to the run. -/
theorem scan_text (free : '{' ∉ text) :
    scan .text run (text ++ rest) =
      if '}' ∈ text then none else scan .text (text.reverse ++ run) rest := by
  induction text generalizing run with
  | nil => simp
  | cons c cs ih =>
    have notOpening : c ≠ '{' := fun same => free (same ▸ List.mem_cons_self)
    rw [List.cons_append, scan, if_neg notOpening]
    by_cases closing : c = '}'
    · rw [if_pos closing, if_pos (closing ▸ List.mem_cons_self)]
    · rw [if_neg closing, ih fun mem => free (List.mem_cons_of_mem _ mem)]
      simp [Ne.symm closing]

theorem scan_slot (free : '}' ∉ name) :
    scan .slot run (name ++ rest) = scan .slot (name.reverse ++ run) rest := by
  induction name generalizing run with
  | nil => rfl
  | cons c cs ih =>
    have notClosing : c ≠ '}' := fun same => free (same ▸ List.mem_cons_self)
    rw [List.cons_append, scan, if_neg notClosing, ih fun mem => free (List.mem_cons_of_mem _ mem)]
    simp

/-- Where a text ends, its run becomes a token. -/
theorem scan_text_stop (stops : ∀ c ∈ rest.head?, c = '{') :
    scan .text run rest = (scan .text [] rest).map (Place.text.tokens run ++ ·) := by
  cases rest with
  | nil => simp [scan, Place.tokens]
  | cons c cs =>
    cases stops c rfl
    simp [scan, Place.tokens]

/-- The token of a slot; an empty slot has none. -/
def slotTokens (name : List Char) : List Token :=
  if name.isEmpty then [] else [.slot (String.ofList name)]

theorem tokens_slot (name : List Char) : Place.slot.tokens name.reverse = slotTokens name := by
  simp [Place.tokens, slotTokens]

theorem scan_content (some : text ≠ []) (free : '{' ∉ text) (stops : ∀ c ∈ rest.head?, c = '{') :
    scan .text [] (text ++ rest) = if '}' ∈ text then none
      else (scan .text [] rest).map (.text (String.ofList text) :: ·) := by
  have token : Place.text.tokens text.reverse = [.text (String.ofList text)] := by
    simp [Place.tokens, some]
  rw [scan_text free, List.append_nil, scan_text_stop stops, token]
  rfl

/-- Behind a slot, the scan starts anew. -/
theorem scan_closed (free : '}' ∉ name) :
    scan .text run ('{' :: (name ++ '}' :: rest)) =
      (scan .text [] rest).map (Place.text.tokens run ++ slotTokens name ++ ·) := by
  rw [scan, if_pos rfl, scan_slot free, scan, if_pos rfl, List.append_nil, tokens_slot,
    Option.map_map]
  congr 1
  funext tokens
  simp

theorem scan_opened (free : '}' ∉ name) :
    scan .text run ('{' :: name) = some (Place.text.tokens run ++ slotTokens name) := by
  have inside : scan .slot [] (name ++ []) = scan .slot (name.reverse ++ []) [] := scan_slot free
  rw [List.append_nil, List.append_nil] at inside
  rw [scan, if_pos rfl, inside, scan, tokens_slot, Option.map_some]

end

/-- What a reading of the grammar says: a closing brace in a text is refused, and a slot without a
name is nothing. -/
def tokensOf : List Reading → Except Error (List Token)
  | [] => .ok []
  | .of .content text _ :: rest =>
    if '}' ∈ text then .error .unmatchedBrackets
    else (tokensOf rest).map (.text (String.ofList text) :: ·)
  | .of .slot _ (.of _ name _ :: _) :: rest => (tokensOf rest).map (slotTokens name ++ ·)
  | _ :: rest => tokensOf rest

/-- Where nothing is scanned, the braces do not match. -/
def matched (tokens : Option (List Token)) : Except Error (List Token) :=
  tokens.elim (.error .unmatchedBrackets) .ok

theorem parse_eq_matched (template : String) :
    parse template = matched (scan .text [] template.toList) := by
  unfold parse
  cases scan .text [] template.toList <;> rfl

theorem parse_eq_ok_iff {template : String} {tokens : List Token} :
    parse template = .ok tokens ↔ scan .text [] template.toList = some tokens := by
  rw [parse_eq_matched]
  cases scan .text [] template.toList <;> simp [matched]

/-- There is but one way to fail. -/
theorem parse_eq_error_iff {template : String} {e : Error} :
    parse template = .error e ↔
      e = .unmatchedBrackets ∧ scan .text [] template.toList = none := by
  rw [parse_eq_matched]
  cases scan .text [] template.toList <;> simp [matched, eq_comm]

theorem matched_map (tokens : Option (List Token)) (f : List Token → List Token) :
    matched (tokens.map f) = (matched tokens).map f := by
  cases tokens <;> rfl

/-- The scanner finds the parts that the grammar tells apart. -/
theorem Pieced.tokensOf_eq {cs : List Char} {readings : List Reading}
    (pieced : Pieced cs readings) : tokensOf readings = matched (scan .text [] cs) := by
  induction pieced with
  | nil => rfl
  | content some free stops _ ih =>
    rw [tokensOf, scan_content some free stops]
    split
    · rfl
    · rw [ih, matched_map]
  | closed free _ ih =>
    rw [scan_closed free, matched_map, ← ih]
    rfl
  | opened free =>
    rw [scan_opened free]
    simp [Peg.slotReading, tokensOf, Except.map, Place.tokens, matched]

/-- A place outside of all slots: each slot that is opened in front of it is closed there by the
next closing brace. -/
inductive Outside : List Char → Prop
  | start : Outside []
  | char {cs c} (before : Outside cs) (plain : c ≠ '{') : Outside (cs ++ [c])
  | slot {cs name} (before : Outside cs) (free : '}' ∉ name) :
    Outside (cs ++ '{' :: (name ++ ['}']))

/-- A closing brace stands outside of all slots. -/
def Stray (cs : List Char) : Prop := ∃ before after, cs = before ++ '}' :: after ∧ Outside before

/-- The texts behind which a character stands at a place. -/
def Place.Reached : Place → List Char → Prop
  | text, before => Outside before
  | slot, before => ∃ cs name, before = cs ++ '{' :: name ∧ Outside cs ∧ '}' ∉ name

/-- A scan stops at a closing brace only, and only in a text. -/
theorem stray_of_scan {place : Place} {run cs before : List Char}
    (refused : scan place run cs = none) (reached : place.Reached before) :
    Stray (before ++ cs) := by
  induction place, run, cs using scan.induct generalizing before with
  | case1 => cases refused
  | case2 run cs ih =>
    have later : scan .slot [] cs = none := by simpa [scan] using refused
    simpa using ih later ⟨before, [], rfl, reached, List.not_mem_nil⟩
  | case3 run cs => exact ⟨before, cs, rfl, reached⟩
  | case4 run c cs notOpening notClosing ih =>
    have later : scan .text (c :: run) cs = none := by
      simpa [scan, notOpening, notClosing] using refused
    simpa using ih later (reached.char notOpening)
  | case5 run cs ih =>
    obtain ⟨outer, name, rfl, outside, free⟩ := reached
    have later : scan .text [] cs = none := by simpa [scan] using refused
    simpa using ih later (outside.slot free)
  | case6 run c cs notClosing ih =>
    obtain ⟨outer, name, rfl, outside, free⟩ := reached
    have later : scan .slot (c :: run) cs = none := by simpa [scan, notClosing] using refused
    have still : '}' ∉ name ++ [c] := by simp [free, Ne.symm notClosing]
    simpa using ih later ⟨outer, name ++ [c], rfl, outside, still⟩

/-- What stands in front of a stray brace does not save it: outside of slots the scan is back in a
text. -/
theorem Outside.scan_eq_none {before : List Char} (outside : Outside before) {rest : List Char}
    (refused : ∀ run, scan .text run rest = none) (run : List Char) :
    scan .text run (before ++ rest) = none := by
  induction outside generalizing rest run with
  | start => exact refused run
  | char _ plain ih =>
    rw [List.append_assoc]
    refine ih (fun run => ?_) run
    rw [List.singleton_append, scan, if_neg plain]
    split
    · rfl
    · exact refused _
  | slot _ free ih =>
    rw [List.append_assoc, List.cons_append, List.append_assoc, List.singleton_append]
    refine ih (fun run => ?_) run
    rw [scan_closed free, refused, Option.map_none]

/-- The scan fails for stray braces and for nothing else. -/
theorem scan_eq_none_iff {cs : List Char} : scan .text [] cs = none ↔ Stray cs := by
  constructor
  · intro refused
    exact stray_of_scan refused Outside.start
  · rintro ⟨before, after, rfl, outside⟩
    exact outside.scan_eq_none (fun run => by simp [scan]) []

/-- A text in which the empty slots and an opening brace at the end are left out and a last slot is
closed. -/
inductive Mends : List Char → List Char → Prop
  | nil : Mends [] []
  | char {c cs ds} (plain : c ≠ '{') (later : Mends cs ds) : Mends (c :: cs) (c :: ds)
  | empty {cs ds} (later : Mends cs ds) : Mends ('{' :: '}' :: cs) ds
  | slot {name cs ds} (named : name ≠ []) (free : '}' ∉ name) (later : Mends cs ds) :
    Mends ('{' :: (name ++ '}' :: cs)) ('{' :: (name ++ '}' :: ds))
  | lone : Mends ['{'] []
  | opened {name} (named : name ≠ []) (free : '}' ∉ name) :
    Mends ('{' :: name) ('{' :: (name ++ ['}']))

theorem Mends.text {text cs ds : List Char} (free : '{' ∉ text) (later : Mends cs ds) :
    Mends (text ++ cs) (text ++ ds) := by
  induction text with
  | nil => exact later
  | cons c text ih =>
    exact .char (fun same => free (same ▸ List.mem_cons_self))
      (ih fun mem => free (List.mem_cons_of_mem _ mem))

theorem exists_mends (cs : List Char) : ∃ ds, Mends cs ds := by
  obtain ⟨readings, pieced⟩ := exists_pieced cs
  induction pieced with
  | nil => exact ⟨[], .nil⟩
  | content _ free _ _ ih =>
    obtain ⟨ds, later⟩ := ih
    exact ⟨_, later.text free⟩
  | @closed name _ _ free _ ih =>
    obtain ⟨ds, later⟩ := ih
    by_cases named : name = []
    · exact ⟨ds, named ▸ .empty later⟩
    · exact ⟨_, .slot named free later⟩
  | @opened name free =>
    by_cases named : name = []
    · exact ⟨[], named ▸ .lone⟩
    · exact ⟨_, .opened named free⟩

/-- The template of several tokens. -/
def written (tokens : List Token) : String :=
  String.ofList (tokens.flatMap fun token => token.source.toList)

@[simp] theorem toList_written (tokens : List Token) :
    (written tokens).toList = tokens.flatMap fun token => token.source.toList :=
  String.toList_ofList

theorem sources_text (run : List Char) :
    (Place.text.tokens run).flatMap (fun token => token.source.toList) = run.reverse := by
  by_cases empty : run = [] <;> simp [Place.tokens, empty, Token.source]

theorem sources_slot {name : List Char} (named : name ≠ []) :
    (slotTokens name).flatMap (fun token => token.source.toList) = '{' :: (name ++ ['}']) := by
  simp [slotTokens, named, Token.source]

/-- Writing what was read gives the mended text. -/
theorem Mends.written_eq {cs ds run : List Char} (mends : Mends cs ds) {tokens : List Token}
    (scanned : scan .text run cs = some tokens) :
    (written tokens).toList = run.reverse ++ ds := by
  rw [toList_written]
  induction mends generalizing run tokens with
  | nil =>
    cases scanned
    rw [sources_text, List.append_nil]
  | @char c cs ds plain _ ih =>
    rw [scan, if_neg plain] at scanned
    split at scanned
    · cases scanned
    · simpa using ih scanned
  | empty _ ih =>
    rw [← List.nil_append ('}' :: _), scan_closed List.not_mem_nil] at scanned
    obtain ⟨rest, later, rfl⟩ := Option.map_eq_some_iff.1 scanned
    simp [sources_text, slotTokens, ih later]
  | slot named free _ ih =>
    rw [scan_closed free] at scanned
    obtain ⟨rest, later, rfl⟩ := Option.map_eq_some_iff.1 scanned
    simp [sources_text, sources_slot named, ih later]
  | lone =>
    rw [scan_opened List.not_mem_nil] at scanned
    cases scanned
    simp [sources_text, slotTokens]
  | opened named free =>
    rw [scan_opened free] at scanned
    cases scanned
    simp [sources_text, sources_slot named]

/-- Tokens as they are read: texts without braces and names without a closing brace, none of them
empty, and no two texts one behind the other. -/
structure Canonical (tokens : List Token) : Prop where
  texts : ∀ s, .text s ∈ tokens → s ≠ "" ∧ '{' ∉ s.toList ∧ '}' ∉ s.toList
  slots : ∀ name, .slot name ∈ tokens → name ≠ "" ∧ '}' ∉ name.toList
  apart : tokens.IsChain fun first second => ∀ s t, first = .text s → second ≠ .text t

theorem Canonical.tail {token : Token} {tokens : List Token}
    (canonical : Canonical (token :: tokens)) : Canonical tokens where
  texts s mem := canonical.texts s (List.mem_cons_of_mem _ mem)
  slots name mem := canonical.slots name (List.mem_cons_of_mem _ mem)
  apart := canonical.apart.tail

/-- Behind a text a slot follows, or nothing. -/
theorem Canonical.stops {s : String} {tokens : List Token}
    (canonical : Canonical (.text s :: tokens)) :
    ∀ c ∈ (written tokens).toList.head?, c = '{' := by
  rw [toList_written]
  cases tokens with
  | nil => simp
  | cons token tokens =>
    cases token with
    | text t =>
      have apart := canonical.apart
      rw [List.isChain_cons_cons] at apart
      exact absurd rfl (apart.1 s t rfl)
    | slot name => simp [Token.source]

/-- Canonical tokens are found again: texts end where slots begin, and no slot is lost. -/
theorem Canonical.scan_written {tokens : List Token} (canonical : Canonical tokens) :
    scan .text [] (written tokens).toList = some tokens := by
  induction tokens with
  | nil => rfl
  | cons token tokens ih =>
    have later := ih canonical.tail
    cases token with
    | text s =>
      obtain ⟨some, opening, closing⟩ := canonical.texts s List.mem_cons_self
      have content := scan_content (by simpa using some) opening canonical.stops
      rw [later, if_neg closing, String.ofList_toList] at content
      simpa [Token.source] using content
    | slot name =>
      obtain ⟨named, closing⟩ := canonical.slots name List.mem_cons_self
      have closed : scan .text [] ('{' :: (name.toList ++ '}' :: (written tokens).toList)) = _ :=
        scan_closed closing
      rw [later] at closed
      simpa [Token.source, slotTokens, Place.tokens, named] using closed

/-- The grammar has one reading of each text, from which the tokens are taken. The only error is
that of the braces, and it is made if and only if a closing brace stands outside of all slots. The
template of the tokens that are read is the text without its empty slots and without an opening
brace at the end, and with a closing brace for a last slot that is left open. Tokens in the form in
which they are read are read back from their template. -/
theorem parse_exact (template : String) :
    (∃ readings, tokensOf readings = parse template ∧
      ∀ r, Peg.template.Takes template.toList r ↔
        r = some ([.of .template template.toList readings], [])) ∧
    (∀ e, parse template = .error e ↔ e = .unmatchedBrackets ∧ Stray template.toList) ∧
    (∀ tokens, parse template = .ok tokens →
      ∀ mended, Mends template.toList mended ↔ mended = (written tokens).toList) ∧
    ∀ tokens, Canonical tokens → parse (written tokens) = .ok tokens := by
  refine ⟨?_, fun e => ?_, fun tokens parsed mended => ?_, fun tokens canonical => ?_⟩
  · obtain ⟨readings, pieced⟩ := exists_pieced template.toList
    refine ⟨readings, ?_, pieced.template_takes_iff⟩
    rw [pieced.tokensOf_eq, parse_eq_matched]
  · rw [parse_eq_error_iff, scan_eq_none_iff]
  · have scanned := parse_eq_ok_iff.1 parsed
    have mends_eq {mended : List Char} (mends : Mends template.toList mended) :
        mended = (written tokens).toList := by
      have written_eq := mends.written_eq scanned
      rw [List.reverse_nil, List.nil_append] at written_eq
      exact written_eq.symm
    constructor
    · exact mends_eq
    · rintro rfl
      obtain ⟨mended, mends⟩ := exists_mends template.toList
      exact mends_eq mends ▸ mends
  · exact parse_eq_ok_iff.2 canonical.scan_written

theorem parse_sampleMended :
    parse "a\x7b\x7db\x7b\x7bc\x7d\x7bd" =
        .ok [.text "a", .text "b", .slot "\x7bc", .slot "d"] ∧
      Mends "a\x7b\x7db\x7b\x7bc\x7d\x7bd".toList "ab\x7b\x7bc\x7d\x7bd\x7d".toList ∧
      Canonical [.text "a", .slot "\x7bc", .text "b"] ∧
      parse "a\x7b\x7bc\x7db" = .ok [.text "a", .slot "\x7bc", .text "b"] := by
  obtain ⟨-, -, mended, restored⟩ := parse_exact "a\x7b\x7db\x7b\x7bc\x7d\x7bd"
  have parsed : parse "a\x7b\x7db\x7b\x7bc\x7d\x7bd" =
      .ok [.text "a", .text "b", .slot "\x7bc", .slot "d"] := by decide +kernel
  have canonical : Canonical [.text "a", .slot "\x7bc", .text "b"] := by
    constructor
    · intro s mem
      obtain rfl | rfl : s = "a" ∨ s = "b" := by simpa using mem
      all_goals decide
    · intro name mem
      obtain rfl : name = "\x7bc" := by simpa using mem
      decide
    · simp
  exact ⟨parsed, (mended _ parsed _).2 (by decide +kernel), canonical, restored _ canonical⟩

example : parse "a \x7btokenId\x7d c parameters\x7d" = .error .unmatchedBrackets := by
  decide +kernel

end Mintage.Template
