import Mintage.Proofs.Layout.Pen
import Mintage.Proofs.Solidity.Regular

/-! What a pen needs to write the documents of which those of programs are built, however they are
laid out. -/
namespace Mintage.Layout.Doc

open Solidity

/-- Whichever lines are broken, a pen in the first state writes the document, and then it allows as
much as the second state. -/
def Moves (a b : Pen) (doc : Doc) : Prop :=
  ∀ indent ss, doc.Draws indent ss → ∃ c, a.run ss = some c ∧ b ≤ c

variable {a a' b b' c : Pen} {doc : Doc} {docs more : List Doc}

namespace Moves

/-- A pen that may do more writes the document, too, and less may be asked of it afterwards. -/
theorem weaken (moves : doc.Moves a b) (start : a ≤ a') (finish : b' ≤ b) :
    doc.Moves a' b' := by
  intro indent ss drawn
  obtain ⟨c, run, le⟩ := moves indent ss drawn
  obtain ⟨c', run', le'⟩ := Pen.run_mono start run
  exact ⟨c', run', finish.trans (le.trans le')⟩

theorem nil (a : Pen) : (concat []).Moves a a := by
  rintro indent ss ⟨⟩
  exact ⟨a, rfl, le_refl a⟩

/-- The states of two documents meet where the first one ends. -/
theorem cons (first : doc.Moves a b) (rest : (concat docs).Moves b c) :
    (concat (doc :: docs)).Moves a c := by
  rintro indent _ ⟨ss, more, drawn, drawnAll, rfl⟩
  obtain ⟨d, run, reached⟩ := first indent ss drawn
  obtain ⟨e, run', reached'⟩ := rest.weaken reached (le_refl c) indent more drawnAll
  rw [Pen.run_append, run]
  exact ⟨e, run', reached'⟩

theorem append (first : (concat docs).Moves a b) (second : (concat more).Moves b c) :
    (concat (docs ++ more)).Moves a c := by
  intro indent ss drawn
  obtain ⟨front, back, here, behind, rfl⟩ := drawsAll_append drawn
  obtain ⟨d, run, reached⟩ := first indent front here
  obtain ⟨e, run', reached'⟩ := second.weaken reached (le_refl c) indent back behind
  rw [Pen.run_append, run]
  exact ⟨e, run', reached'⟩

theorem indent (moves : doc.Moves a b) : (Doc.indent doc).Moves a b :=
  fun level => moves (level + indentWidth)

theorem grouped (moves : doc.Moves a b) : doc.grouped.Moves a b := moves

/-- Texts that are put together without a break. -/
theorem joined {s t : String} (first : (text s).Moves a b) (second : (text t).Moves b c) :
    (text (s ++ t)).Moves a c := by
  rintro indent _ rfl
  have whole : (concat [text s, text t]).Moves a c := first.cons (second.cons (.nil c))
  obtain ⟨d, run, reached⟩ :=
    whole indent [.text s, .text t] ⟨[.text s], [.text t], rfl, ⟨[.text t], [], rfl, rfl, rfl⟩, rfl⟩
  refine ⟨d, ?_, reached⟩
  rw [← run]
  simp [Pen.step, Pen.text_append]

end Moves

theorem moves_nil (a : Pen) : Doc.nil.Moves a a := by
  rintro indent ss ⟨⟩
  exact ⟨a, rfl, le_refl a⟩

theorem moves_text {s : String} (reached : a.reaches b s = true) : (text s).Moves a b := by
  rintro indent _ rfl
  simpa [Pen.reaches, Pen.step, Option.any_eq_true] using reached

/-- Below a line that is not blank, any text in one line may stand. -/
theorem moves_level {s : String} (level : '\n' ∉ s.toList) (above : a ≠ .gap)
    (le : a ≤ .brace) : (text s).Moves a a := by
  rintro indent _ rfl
  refine ⟨a.after s.toList, ?_, Pen.le_after (le_refl a) le s.toList⟩
  simp [Pen.step, Pen.text_of_notMem level above]

/-- Behind a mark, any text in one line may follow. -/
theorem Moves.followed {s t : String} (first : (text s).Moves a .brace)
    (level : '\n' ∉ t.toList) : (text (s ++ t)).Moves a .brace :=
  first.joined (moves_level level (by decide) (le_refl Pen.brace))

/-- It is enough to look at the broken line: one that is not broken leaves the pen as it is, which
allows more. -/
theorem moves_line {kind : Line} (allowed : a.breakLine = some c) (le : b ≤ c) :
    (line kind).Moves a b := by
  rintro indent ss (rfl | flat)
  · exact ⟨c, by simp [Pen.step, allowed], le⟩
  · have kept := le.trans (Pen.le_of_breakLine allowed)
    cases kind <;> cases flat <;> exact ⟨a, rfl, kept⟩

theorem moves_hardLine : hardLine.Moves .ink .fresh := moves_line rfl (by decide)

theorem moves_blankLine : blankLine.Moves .ink .gap :=
  moves_hardLine.cons ((moves_line (a := .fresh) rfl (by decide)).cons (.nil .gap))

/-- Where a brace may follow, it may follow in this line or in the next one. -/
theorem moves_openBrace : openBrace.Moves .brace .brace := by
  have feed : spaceLine.Moves .brace .opened := moves_line rfl (by decide)
  have brace : (text "\x7b").Moves .opened .brace := moves_text (by decide)
  have own : (concat [spaceLine, text "\x7b"]).Moves .brace .brace :=
    feed.cons (brace.cons (.nil .brace))
  rintro indent ss (broken | flat)
  · exact own indent ss broken
  · exact moves_text (by decide) indent ss flat

/-- Between any two documents stands the separator, so one pass over them is enough. -/
theorem moves_join {separator : Doc} (between : separator.Moves b a) {docs : List Doc}
    (all : ∀ doc ∈ docs, doc.Moves a b) (filled : docs ≠ []) : (join separator docs).Moves a b := by
  unfold join
  match docs with
  | [] => exact absurd rfl filled
  | [doc] => exact (all doc List.mem_cons_self).cons (.nil b)
  | first :: second :: more =>
    rw [List.intersperse_cons_cons]
    have later : (join separator (second :: more)).Moves a b :=
      moves_join between (fun doc mem => all doc (List.mem_cons_of_mem _ mem))
        (List.cons_ne_nil second more)
    exact (all first List.mem_cons_self).cons (between.cons later)

theorem moves_commas (all : ∀ doc ∈ docs, doc.Moves .opened .brace) (filled : docs ≠ []) :
    (commas docs).Moves .opened .brace := by
  refine moves_join ?_ all filled
  have comma : (text ",").Moves .brace .ink := moves_text (by decide)
  have feed : spaceLine.Moves .ink .opened := moves_line rfl (by decide)
  exact comma.cons (feed.cons (.nil .opened))

/-- The brackets may be empty, and then nothing stands between them. -/
theorem moves_bracketed {opening closing : String} (opens : (text opening).Moves a .brace)
    (closes : (text closing).Moves .opened .ink)
    (all : ∀ doc ∈ docs, doc.Moves .opened .brace) :
    (bracketed opening closing docs).Moves a .ink := by
  have feed : softLine.Moves .brace .opened := moves_line rfl (by decide)
  unfold bracketed
  split
  · exact opens.joined (closes.weaken (by decide) (le_refl _))
  · rename_i filled
    have inside := feed.cons ((moves_commas all (by simpa using filled)).cons (.nil .brace))
    exact (opens.cons (inside.indent.cons (feed.cons (closes.cons (.nil .ink))))).grouped

/-- Every item of a block begins in a line of its own, and so does the brace that closes it. -/
theorem moves_blockTail {separator : Doc} (between : separator.Moves .ink .gap)
    (all : ∀ doc ∈ docs, doc.Moves .gap .ink) : (blockTail separator docs).Moves .brace .ink := by
  unfold blockTail
  split
  · exact moves_text (by decide)
  · rename_i filled
    have first : hardLine.Moves .brace .gap := moves_line rfl (by decide)
    have closes : (text "\x7d").Moves .fresh .ink := moves_text (by decide)
    have inside := first.cons ((moves_join between all (by simpa using filled)).cons (.nil .ink))
    exact inside.indent.cons (moves_hardLine.cons (closes.cons (.nil .ink)))

theorem moves_block (all : ∀ doc ∈ docs, doc.Moves .gap .ink) : (block docs).Moves .gap .ink :=
  (moves_text (b := .brace) (by decide)).cons
    ((moves_blockTail moves_blankLine all).cons (.nil .ink))

/-- The left operand leaves ink behind, so the operator may be any text in one line. -/
theorem moves_operation {left right : Doc} {operator : String} (first : left.Moves .gap .brace)
    (level : '\n' ∉ operator.toList) (second : right.Moves .gap .brace) :
    (operation left operator right).Moves .gap .brace := by
  have sign : (text (" " ++ operator)).Moves .brace .brace :=
    moves_level (by simpa using level) (by decide) (le_refl _)
  have feed : spaceLine.Moves .brace .gap := moves_line rfl (by decide)
  have inside := feed.cons (second.cons (.nil .brace))
  exact (first.cons (sign.cons (inside.indent.cons (.nil .brace)))).grouped

theorem moves_operand (moves : doc.Moves .gap .brace) (compound : Bool) :
    (operand compound doc).Moves .gap .brace := by
  unfold operand
  split
  · have opens : (text "(").Moves .gap .gap := moves_text (by decide)
    have closes : (text ")").Moves .brace .brace := moves_text (by decide)
    exact opens.cons (moves.cons (closes.cons (.nil .brace)))
  · exact moves

theorem moves_memberDoc {object : Doc} (moves : object.Moves .gap .brace) {name : String}
    (level : '\n' ∉ name.toList) (ofCall : Bool) :
    (memberDoc ofCall object name).Moves .gap .brace := by
  have dot : (text ".").Moves .opened .brace := moves_text (by decide)
  have member := dot.followed level
  unfold memberDoc
  split
  · have feed : softLine.Moves .brace .opened := moves_line rfl (by decide)
    have inside := feed.cons (member.cons (.nil .brace))
    exact (moves.cons (inside.indent.cons (.nil .brace))).grouped
  · exact moves.cons ((member.weaken (by decide) (le_refl _)).cons (.nil .brace))

end Mintage.Layout.Doc
