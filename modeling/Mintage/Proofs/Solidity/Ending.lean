import Mintage.Proofs.Solidity.Nesting

/-! How the page of a program ends that has a comment behind its last contract. -/
namespace Mintage.Layout

theorem endsLine_append {ss more : List Stroke} (ends : endsLine more = false) :
    endsLine (ss ++ more) = endsLine ss := by
  induction ss with
  | nil => exact ends
  | cons stroke ss ih => rw [List.cons_append, endsLine, endsLine, ih]

/-- Spaces in front of a line end are not written, so what is appended must not end a line. -/
theorem spell_append (ss : List Stroke) {more : List Stroke} (ends : endsLine more = false) :
    spell (ss ++ more) = spell ss ++ spell more := by
  induction ss with
  | nil => rfl
  | cons stroke ss ih =>
    rw [List.cons_append, spell, spell, endsLine_append ends, ih, List.append_assoc]

namespace Doc

variable {indent : Nat} {separator doc : Doc} {docs more : List Doc} {ss : List Stroke}

theorem drawsAll_append_iff : DrawsAll indent (docs ++ more) ss ↔
    ∃ front back, DrawsAll indent docs front ∧ DrawsAll indent more back ∧ ss = front ++ back := by
  refine ⟨drawsAll_append, ?_⟩
  rintro ⟨front, back, drawn, behind, rfl⟩
  induction docs generalizing front with
  | nil =>
    cases drawn
    exact behind
  | cons doc docs ih =>
    obtain ⟨first, rest, here, later, rfl⟩ := drawn
    exact ⟨first, rest ++ back, here, ih rest later, List.append_assoc ..⟩

theorem drawsAll_singleton : DrawsAll indent [doc] ss ↔ doc.Draws indent ss := by
  constructor
  · rintro ⟨first, _, drawn, rfl, rfl⟩
    rwa [List.append_nil]
  · intro drawn
    exact ⟨ss, [], drawn, rfl, (List.append_nil ss).symm⟩

theorem intersperse_concat (separator : Doc) (docs : List Doc) (doc : Doc) :
    (docs ++ [doc]).intersperse separator = (docs.flatMap fun d => [d, separator]) ++ [doc] := by
  match docs with
  | [] => rfl
  | [_] => rfl
  | first :: second :: docs =>
    have later := intersperse_concat separator (second :: docs) doc
    rw [List.cons_append, List.cons_append, List.intersperse_cons_cons, ← List.cons_append, later]
    rfl

/-- The strokes that write the last of several documents stand behind the others. -/
theorem draws_join_concat : (join separator (docs ++ [doc])).Draws indent ss ↔
    ∃ front back, DrawsAll indent (docs.flatMap fun d => [d, separator]) front ∧
      doc.Draws indent back ∧ ss = front ++ back := by
  rw [join, intersperse_concat, Draws, drawsAll_append_iff]
  simp only [drawsAll_singleton]

end Doc

end Mintage.Layout

namespace Mintage.Solidity

open Layout Text

/-- A contract ends with its brace. -/
theorem Contract.draws_doc {c : Contract} {indent : Nat} {ss : List Stroke}
    (drawn : c.doc.Draws indent ss) : ∃ front, ss = front ++ [Stroke.text "\x7d"] := by
  obtain ⟨header, _, -, ⟨body, _, drawn, rfl, rfl⟩, rfl⟩ := drawn
  rw [List.append_nil]
  unfold blockTail at drawn
  split at drawn
  · cases drawn
    exact ⟨header, rfl⟩
  · obtain ⟨inside, _, -, ⟨line, _, -, ⟨_, _, rfl, rfl, rfl⟩, rfl⟩, rfl⟩ := drawn
    exact ⟨header ++ (inside ++ line), by simp⟩

namespace Program

variable {p : Program}

/-- The documents in front of the contracts. -/
def lead (p : Program) : List Doc :=
  ((p.sections.take 2).filter (!·.2.isEmpty)).map fun part => .join part.1 part.2

/-- The contracts and comments stand last, so the content ends as they do. -/
theorem content_eq (some : p.body ≠ []) :
    p.content = .join .blankLine (p.lead ++ [Doc.join .blankLine (p.body.map Item.doc)]) := by
  have split : p.sections = p.sections.take 2 ++ [(.blankLine, p.body.map Item.doc)] := rfl
  rw [content, split, List.filter_append, List.map_append]
  have kept : [(Doc.blankLine, p.body.map Item.doc)].filter (!·.2.isEmpty) =
      [(Doc.blankLine, p.body.map Item.doc)] := by
    simp [some]
  rw [kept]
  rfl

/-- Behind the brace of the last contract stand a blank line and the comment. -/
theorem draws_note {items : List Item} {c : Contract} {note : Comment}
    (body : p.body = items ++ [Item.contract c, .comment note]) {ss : List Stroke}
    (drawn : p.doc.Draws 0 ss) :
    ∃ front comment, ({ p with body := items ++ [Item.contract c] } : Program).content.Draws 0
        (front ++ [Stroke.text "\x7d"]) ∧
      note.doc.Draws 0 comment ∧
      ss = front ++
        .text "\x7d" :: .newLine 0 :: .newLine 0 :: (comment ++ [Stroke.newLine 0]) := by
  obtain ⟨content, _, drawn, ⟨feed, _, broken, rfl, rfl⟩, rfl⟩ := drawn
  have behind : feed = [.newLine 0] := draws_hardLine broken
  have docs : p.body.map Item.doc = (items.map Item.doc ++ [c.doc]) ++ [note.doc] := by
    rw [body, List.map_append, List.append_assoc]
    rfl
  rw [← Program.content, content_eq (by simp [body]), docs] at drawn
  obtain ⟨lead, rest, drawnLead, drawnItems, rfl⟩ := Doc.draws_join_concat.1 drawn
  obtain ⟨contracts, comment, drawnContracts, drawnNote, rfl⟩ := Doc.draws_join_concat.1 drawnItems
  rw [List.flatMap_append, List.flatMap_singleton, Doc.drawsAll_append_iff] at drawnContracts
  obtain ⟨earlier, _, drawnEarlier, ⟨own, _, drawnOwn, ⟨blank, _, gap, rfl, rfl⟩, rfl⟩, rfl⟩ :=
    drawnContracts
  obtain ⟨front, rfl⟩ := Contract.draws_doc drawnOwn
  refine ⟨lead ++ (earlier ++ front), comment, ?_, drawnNote, ?_⟩
  · have docs : ({ p with body := items ++ [Item.contract c] } : Program).body.map Item.doc =
        items.map Item.doc ++ [c.doc] := by simp [Item.doc]
    rw [content_eq (by simp), docs]
    refine Doc.draws_join_concat.2
      ⟨lead, earlier ++ (front ++ [Stroke.text "\x7d"]), drawnLead, ?_, ?_⟩
    · exact Doc.draws_join_concat.2 ⟨earlier, _, drawnEarlier, drawnOwn, rfl⟩
    · simp
  · rw [draws_blankLine gap, behind]
    simp

end Program

end Mintage.Solidity
