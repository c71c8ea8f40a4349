import Mathlib.Order.Basic
import Mintage.Proofs.Layout.Lines

/-! A pen that writes strokes and knows where it may leave a blank line. -/
namespace Mintage.Layout

open Text

/-- What a pen knows of the line it is on. Of two states, the later one allows more. -/
inductive Pen where
  /-- The line is blank so far, as is the one above. -/
  | gap
  /-- The line is blank so far, and the one above ends in an opening brace. -/
  | opened
  /-- The line is blank so far, and the one above ends in another mark. -/
  | fresh
  /-- The line ends in an opening brace so far. -/
  | brace
  /-- The line ends in another mark so far. -/
  | ink
  deriving DecidableEq, Repr

namespace Pen

def rank : Pen → Nat
  | gap => 0
  | opened => 1
  | fresh => 2
  | brace => 3
  | ink => 4

instance : Preorder Pen := Preorder.lift rank

instance : DecidableLE Pen := fun a b => inferInstanceAs (Decidable (a.rank ≤ b.rank))

/-- The pen behind a line with the mark at its end. -/
def ofMark (c : Char) : Pen := if c = '{' then brace else ink

/-- The pen behind a text. -/
def after (pen : Pen) (cs : List Char) : Pen := ((marks cs).getLast?.map ofMark).getD pen

/-- The pen at the start of the line below. -/
def below (above : List Char) : Pen :=
  match (marks above).getLast? with
  | none => gap
  | some c => if c = '{' then opened else fresh

/-- No text holds a line feed, and below a gap none starts with a closing brace. -/
def text (pen : Pen) (cs : List Char) : Option Pen :=
  if '\n' ∈ cs ∨ pen = gap ∧ (marks cs).head? = some '}' then none else some (pen.after cs)

def breakLine : Pen → Option Pen
  | gap => none
  | opened => none
  | fresh => some gap
  | brace => some opened
  | ink => some fresh

def step (pen : Pen) : Stroke → Option Pen
  | .text s => pen.text s.toList
  | .space => some pen
  | .newLine _ => pen.breakLine

def run (pen : Pen) (ss : List Stroke) : Option Pen := ss.foldlM step pen

@[simp] theorem run_nil (pen : Pen) : pen.run [] = some pen := rfl

@[simp] theorem run_cons (pen : Pen) (stroke : Stroke) (ss : List Stroke) :
    pen.run (stroke :: ss) = (pen.step stroke).bind fun next => next.run ss := rfl

theorem run_append (pen : Pen) (ss more : List Stroke) :
    pen.run (ss ++ more) = (pen.run ss).bind fun next => next.run more :=
  List.foldlM_append

theorem after_append (pen : Pen) (cs ds : List Char) :
    pen.after (cs ++ ds) = (pen.after cs).after ds := by
  rw [after, marks_append, List.getLast?_append]
  cases last : (marks ds).getLast? <;> simp [after, last]

theorem after_of_marks_eq_nil (pen : Pen) {cs : List Char} (blank : marks cs = []) :
    pen.after cs = pen := by
  rw [after, blank]
  rfl

theorem brace_le_after (pen : Pen) {cs : List Char} (filled : marks cs ≠ []) :
    brace ≤ pen.after cs := by
  rw [after, List.getLast?_eq_some_getLast filled, Option.map_some, Option.getD_some, ofMark]
  split <;> decide

theorem after_ne_gap (pen : Pen) {cs : List Char} (filled : marks cs ≠ []) :
    pen.after cs ≠ gap := by
  intro gap
  have inked := brace_le_after pen filled
  rw [gap] at inked
  exact absurd inked (by decide)

@[simp] theorem after_unpadded (pen : Pen) (cs : List Char) :
    pen.after (unpadded cs) = pen.after cs := by
  rw [after, marks_unpadded, after]

/-- A pen that may do more may still do so behind the same text. -/
theorem after_mono {a b : Pen} (le : a ≤ b) (cs : List Char) : a.after cs ≤ b.after cs := by
  unfold after
  cases (marks cs).getLast? with
  | none => exact le
  | some mark => exact le_refl (ofMark mark)

theorem le_after {a pen : Pen} (le : a ≤ pen) (le' : a ≤ brace) (cs : List Char) :
    a ≤ pen.after cs := by
  by_cases blank : marks cs = []
  · rwa [after_of_marks_eq_nil pen blank]
  · exact le'.trans (brace_le_after pen blank)

theorem text_of_notMem {pen : Pen} {cs : List Char} (level : '\n' ∉ cs) (above : pen ≠ gap) :
    pen.text cs = some (pen.after cs) := by
  simp [text, level, above]

theorem text_append (pen : Pen) (cs ds : List Char) :
    pen.text (cs ++ ds) = (pen.text cs).bind fun next => next.text ds := by
  by_cases feed : '\n' ∈ cs
  · simp [text, feed]
  by_cases feed' : '\n' ∈ ds
  · simp [text, feed']
  by_cases blank : marks cs = []
  · simp [text, feed, feed', blank, after_append, after_of_marks_eq_nil]
  · have head : (marks (cs ++ ds)).head? = (marks cs).head? := by
      rw [marks_append, List.head?_append_of_ne_nil _ blank]
    simp only [text, head, List.mem_append, feed, feed', after_append, false_or]
    split
    · rfl
    · simp [after_ne_gap pen blank]

theorem text_mono {a b c : Pen} (le : a ≤ b) {cs : List Char} (allowed : a.text cs = some c) :
    ∃ d, b.text cs = some d ∧ c ≤ d := by
  simp only [text, Option.ite_none_left_eq_some, not_or, Option.some_inj] at allowed ⊢
  obtain ⟨⟨inLine, closing⟩, rfl⟩ := allowed
  refine ⟨_, ⟨⟨inLine, ?_⟩, rfl⟩, after_mono le cs⟩
  rintro ⟨rfl, brace⟩
  have atGap : a = gap := by
    cases a <;> first | rfl | exact absurd le (by decide)
  exact closing ⟨atGap, brace⟩

theorem breakLine_mono {a b c : Pen} (le : a ≤ b) (allowed : a.breakLine = some c) :
    ∃ d, b.breakLine = some d ∧ c ≤ d := by
  cases a <;> cases allowed <;> cases b <;>
    first | exact ⟨_, rfl, by decide⟩ | exact absurd le (by decide)

/-- A line end takes freedom away, and never adds any. -/
theorem le_of_breakLine {a b : Pen} (allowed : a.breakLine = some b) : b ≤ a := by
  cases a <;> cases allowed <;> decide

theorem step_mono {a b c : Pen} (le : a ≤ b) {stroke : Stroke} (allowed : a.step stroke = some c) :
    ∃ d, b.step stroke = some d ∧ c ≤ d := by
  cases stroke with
  | text s => exact text_mono le allowed
  | space => exact ⟨b, rfl, Option.some_inj.1 allowed ▸ le⟩
  | newLine indent => exact breakLine_mono le allowed

/-- A run that is allowed is allowed in every state that allows more. -/
theorem run_mono {a b c : Pen} (le : a ≤ b) {ss : List Stroke} (allowed : a.run ss = some c) :
    ∃ d, b.run ss = some d ∧ c ≤ d := by
  induction ss generalizing a b with
  | nil => exact ⟨b, rfl, Option.some_inj.1 allowed ▸ le⟩
  | cons stroke ss ih =>
    obtain ⟨next, first, rest⟩ := Option.bind_eq_some_iff.1 allowed
    obtain ⟨next', first', le'⟩ := step_mono le first
    rw [run_cons, first']
    exact ih le' rest

/-- A pen breaks a line only where it may follow the one above. -/
theorem follows_of_breakLine {above line : List Char} {next : Pen}
    (closing : marks above = [] → (marks line).head? ≠ some '}')
    (allowed : ((below above).after line).breakLine = some next) :
    Follows above line ∧ next = below line := by
  cases last : (marks line).getLast? with
  | none =>
    have blank : below line = gap := by rw [below, last]
    rw [after, last, Option.map_none, Option.getD_none, below] at allowed
    rw [blank]
    cases last' : (marks above).getLast? with
    | none => simp [last', breakLine] at allowed
    | some c =>
      have filled : marks above ≠ [] := fun none => by simp [none] at last'
      simp only [last'] at allowed
      split at allowed
      · cases allowed
      · rename_i other
        refine ⟨⟨fun none => absurd none filled, fun brace => ?_, closing⟩, ?_⟩
        · exact absurd (Option.some_inj.1 (last'.symm.trans brace)) other
        · exact (Option.some_inj.1 allowed).symm
  | some c =>
    have filled : marks line ≠ [] := fun none => by simp [none] at last
    refine ⟨⟨fun _ => filled, fun _ => filled, closing⟩, ?_⟩
    rw [after, last, Option.map_some, Option.getD_some, ofMark] at allowed
    rw [below, last]
    dsimp only
    split at allowed <;> simp_all [breakLine]

/-- No stroke of an allowed run brings a line feed into a line. -/
theorem notMem_strokeLines {pen last : Pen} {ss : List Stroke} (run : pen.run ss = some last)
    {line : List Char} (inLine : '\n' ∉ line) : ∀ l ∈ strokeLines line ss, '\n' ∉ l := by
  induction ss generalizing pen line with
  | nil => exact List.forall_mem_singleton.2 (notMem_unpadded inLine)
  | cons stroke ss ih =>
    obtain ⟨next, first, rest⟩ := Option.bind_eq_some_iff.1 run
    cases stroke with
    | text s =>
      have level : '\n' ∉ s.toList := by
        intro feed
        simp [step, text, feed] at first
      exact ih rest (by simp [Stroke.chars, inLine, level])
    | space => exact ih rest (by simp [Stroke.chars, inLine])
    | newLine indent =>
      exact List.forall_mem_cons.2 ⟨notMem_unpadded inLine, ih rest (by simp)⟩

/-- Below any line there may be one with ink, unless it starts with a closing brace below a gap. -/
theorem follows_of_inked {above line : List Char}
    (closing : marks above = [] → (marks line).head? ≠ some '}')
    (inked : brace ≤ (below above).after line) : Follows above line ∧ marks line ≠ [] := by
  have filled : marks line ≠ [] := by
    intro blank
    rw [after_of_marks_eq_nil _ blank, below] at inked
    split at inked
    · exact absurd inked (by decide)
    · split at inked <;> exact absurd inked (by decide)
  exact ⟨⟨fun _ => filled, fun _ => filled, closing⟩, filled⟩

/-- No closing brace is written behind a gap. -/
theorem head?_of_text {above line cs : List Char} {next : Pen}
    (closing : marks above = [] → (marks line).head? ≠ some '}')
    (allowed : ((below above).after line).text cs = some next) (blank : marks above = []) :
    (marks (line ++ cs)).head? ≠ some '}' := by
  by_cases empty : marks line = []
  · simp only [text, Option.ite_none_left_eq_some, not_or, not_and] at allowed
    have gap : (below above).after line = gap := by
      rw [after_of_marks_eq_nil _ empty, below, blank]
      rfl
    simpa [empty] using allowed.1.2 gap
  · simpa [List.head?_append_of_ne_nil _ empty] using closing blank

/-- The lines that a pen writes follow one another as they may, and the last one is not blank. -/
theorem isChain_strokeLines {above line : List Char} {ss : List Stroke} {last : Pen}
    (closing : marks above = [] → (marks line).head? ≠ some '}')
    (run : ((below above).after line).run ss = some last) (inked : brace ≤ last) :
    (above :: strokeLines line ss).IsChain Follows ∧
      ∃ l ∈ (strokeLines line ss).getLast?, marks l ≠ [] := by
  induction ss generalizing above line with
  | nil =>
    cases run
    have cut : marks above = [] → (marks (unpadded line)).head? ≠ some '}' := by simpa using closing
    obtain ⟨follows, filled⟩ := follows_of_inked cut (by simpa using inked)
    exact ⟨List.isChain_pair.2 follows, _, rfl, filled⟩
  | cons stroke ss ih =>
    obtain ⟨next, first, rest⟩ := Option.bind_eq_some_iff.1 run
    cases stroke with
    | text s =>
      have same : next = (below above).after (line ++ s.toList) := by
        simp only [step, text, Option.ite_none_left_eq_some, Option.some_inj] at first
        rw [after_append, first.2]
      exact ih (fun blank => head?_of_text closing first blank) (same ▸ rest)
    | space =>
      have blank : marks [' '] = [] := by decide
      refine ih (by simpa [Stroke.chars, blank] using closing) ?_
      rw [Stroke.chars, after_append, after_of_marks_eq_nil _ blank, Option.some_inj.1 first]
      exact rest
    | newLine indent =>
      have cut : marks above = [] → (marks (unpadded line)).head? ≠ some '}' := by
        simpa using closing
      have broken : ((below above).after (unpadded line)).breakLine = some next := by
        simpa [step] using first
      obtain ⟨follows, rfl⟩ := follows_of_breakLine cut broken
      -- The next line starts with its indentation only, which the pen does not see.
      have start : (below (unpadded line)).after (List.replicate indent ' ') =
          below (unpadded line) :=
        after_of_marks_eq_nil _ (marks_replicate_space indent)
      obtain ⟨chain, l, last, filled⟩ := ih (by simp) (start.symm ▸ rest)
      refine ⟨List.isChain_cons_cons.2 ⟨follows, chain⟩, l, ?_, filled⟩
      rw [strokeLines, List.getLast?_cons, last]
      rfl

/-- A pen that starts as behind an opening brace leaves no blank line at the start of a file. -/
theorem formatted_of_run {ss : List Stroke} {last : Pen} (run : opened.run ss = some last)
    (inked : brace ≤ last) : Formatted (spell (ss ++ [Stroke.newLine 0])) := by
  have start : marks ['{'] = [] → (marks []).head? ≠ some '}' := by decide
  obtain ⟨chain, l, ends, filled⟩ := isChain_strokeLines start run inked
  have level := notMem_strokeLines run List.not_mem_nil
  have written : spell (ss ++ [Stroke.newLine 0]) = (strokeLines [] ss).flatMap (· ++ ['\n']) := by
    rw [← continued_eq_flatMap, continued, show unpadded [] = [] from rfl, ite_self,
      List.nil_append]
  have lines : fileLines (spell (ss ++ [Stroke.newLine 0])) = strokeLines [] ss :=
    written ▸ fileLines_flatMap level
  obtain ⟨others, split⟩ := List.getLast?_eq_some_iff.1 ends
  obtain ⟨first, chain⟩ := List.isChain_cons.1 chain
  refine ⟨?_, ?_, ?_, ?_, ?_⟩
  · rw [written, split]
    simp
  · rw [lines]
    exact fun line mem => getLast?_of_mem_strokeLines mem
  · rw [lines]
    cases start : (strokeLines [] ss).head? with
    | none => simp [split] at start
    | some line => exact ⟨line, rfl, (first line start).opening rfl⟩
  · rw [lines]
    exact ⟨l, ends, filled⟩
  · rw [lines]
    exact chain

/-- Whether a text leads from one state to another, or to one that allows more. -/
def reaches (a b : Pen) (s : String) : Bool := (a.text s.toList).any (b ≤ ·)

end Pen

end Mintage.Layout
