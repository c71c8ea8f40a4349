import Mintage.Proofs.Text.Blank

/-! The words of a text are what is left of it without its blanks, and spaced words are found
again. -/
namespace Mintage.Text

/-- A text that is a word of its own. -/
def IsToken (s : String) : Prop := s ≠ "" ∧ ∀ c ∈ s.toList, isBlank c = false

-- The characters of the text are checked, not all characters that there are.
instance (s : String) : Decidable (IsToken s) :=
  haveI := List.decidableBAll (isBlank · = false) s.toList
  inferInstanceAs (Decidable (_ ∧ _))

theorem words_of_isToken {s : String} (token : IsToken s) : words s = [s] := by
  have filled : s.toList ≠ [] := fun none => token.1 (String.toList_eq_nil_iff.1 none)
  simp [words, pieces_eq_singleton token.2, filled]

/-- What is cut off is a word of its own. -/
theorem isToken_of_mem_words {s word : String} (mem : word ∈ words s) : IsToken word := by
  obtain ⟨filled, solid⟩ := word_solid mem
  exact ⟨fun empty => filled (String.toList_eq_nil_iff.2 empty), solid⟩

/-- Cutting loses the separators only. -/
theorem flatten_pieces (separates : Char → Bool) (cs : List Char) :
    (pieces separates cs).flatten = cs.filter (!separates ·) := by
  induction cs with
  | nil => rfl
  | cons c cs ih =>
    rw [pieces]
    split
    · rename_i cut
      simp [cut, ih]
    · rename_i stays
      obtain ⟨head, tail, parts⟩ := List.exists_cons_of_ne_nil (pieces_ne_nil separates cs)
      rw [parts] at ih ⊢
      simp [stays, ← ih]

/-- The words hold all characters of a text but its blanks. -/
theorem flatMap_words (s : String) :
    (words s).flatMap String.toList = s.toList.filter (!isBlank ·) := by
  have kept (parts : List (List Char)) :
      ((parts.filter (!·.isEmpty)).map String.ofList).flatMap String.toList = parts.flatten := by
    induction parts with
    | nil => rfl
    | cons part parts ih =>
      cases part with
      | nil => exact ih
      | cons c part => simp [ih]
  rw [words, kept, flatten_pieces]

@[simp] theorem spaced_nil : spaced [] = "" := rfl

@[simp] theorem spaced_singleton (word : String) : spaced [word] = word := by
  simp [spaced]

theorem spaced_cons {ws : List String} (more : ws ≠ []) (word : String) :
    spaced (word :: ws) = word ++ " " ++ spaced ws := by
  obtain ⟨next, ws, rfl⟩ := List.exists_cons_of_ne_nil more
  simp [spaced]

theorem spaced_append {ws more : List String} (front : ws ≠ []) (back : more ≠ []) :
    spaced (ws ++ more) = spaced ws ++ " " ++ spaced more := by
  induction ws with
  | nil => exact absurd rfl front
  | cons word ws ih =>
    by_cases last : ws = []
    · rw [last, List.singleton_append, spaced_cons back, spaced_singleton]
    · rw [List.cons_append, spaced_cons (by simp [last]), ih last, spaced_cons last]
      simp [String.append_assoc]

theorem words_spaced (texts : List String) : words (spaced texts) = texts.flatMap words := by
  induction texts with
  | nil => rfl
  | cons text texts ih =>
    by_cases last : texts = []
    · simp [last]
    · rw [spaced_cons last, words_append_space, ih, List.flatMap_cons]

/-- Words that are spaced are found again. -/
theorem words_spaced_of_isToken {ws : List String} (tokens : ∀ word ∈ ws, IsToken word) :
    words (spaced ws) = ws := by
  rw [words_spaced]
  induction ws with
  | nil => rfl
  | cons word ws ih =>
    rw [List.forall_mem_cons] at tokens
    rw [List.flatMap_cons, words_of_isToken tokens.1, ih tokens.2]
    rfl

end Mintage.Text
