import Mathlib.Data.List.Basic
import Mintage.Text.Blank

/-! Words and the texts that are made of them. -/
namespace Mintage.Text

theorem dropWhile_of_head? {cs : List Char} (first : ∀ c ∈ cs.head?, isBlank c = false) :
    cs.dropWhile isBlank = cs := by
  cases cs with
  | nil => rfl
  | cons c cs => simp [first c rfl]

/-- Nothing is trimmed from a text without blanks at its ends. -/
theorem trim_of_ends {s : String} (first : ∀ c ∈ s.toList.head?, isBlank c = false)
    (last : ∀ c ∈ s.toList.getLast?, isBlank c = false) : trim s = s := by
  have fromRight : dropBlanksRight s.toList = s.toList := by
    unfold dropBlanksRight
    rw [dropWhile_of_head? (by simpa using last), List.reverse_reverse]
  rw [trim, dropWhile_of_head? first, fromRight, String.ofList_toList]

/-- Trimming adds nothing. -/
theorem mem_of_mem_trim {s : String} {c : Char} (mem : c ∈ (trim s).toList) : c ∈ s.toList := by
  rw [trim, String.toList_ofList, dropBlanksRight, List.mem_reverse] at mem
  have kept := List.mem_reverse.1 ((List.dropWhile_sublist isBlank).subset mem)
  exact (List.dropWhile_sublist isBlank).subset kept

theorem notMem_of_mem_pieces {separates : Char → Bool} {cs piece : List Char}
    (mem : piece ∈ pieces separates cs) {c : Char} (inside : c ∈ piece) : separates c = false := by
  induction cs generalizing piece with
  | nil =>
    rw [pieces_nil, List.mem_singleton] at mem
    rw [mem] at inside
    cases inside
  | cons d cs ih =>
    unfold pieces at mem
    split at mem
    · rcases List.mem_cons.1 mem with rfl | mem
      · cases inside
      · exact ih mem inside
    · rename_i stays
      cases parts : pieces separates cs with
      | nil => exact absurd parts (pieces_ne_nil separates cs)
      | cons head tail =>
        rw [parts, List.modifyHead_cons] at mem
        rcases List.mem_cons.1 mem with rfl | mem
        · rcases List.mem_cons.1 inside with rfl | inside
          · simpa using stays
          · exact ih (parts ▸ List.mem_cons_self) inside
        · exact ih (parts ▸ List.mem_cons_of_mem _ mem) inside

/-- A text may be cut at a separator before it is cut into pieces. -/
theorem pieces_append_cons {separates : Char → Bool} {c : Char} (cut : separates c = true)
    (cs ds : List Char) :
    pieces separates (cs ++ c :: ds) = pieces separates cs ++ pieces separates ds := by
  induction cs with
  | nil => simp [pieces, cut]
  | cons d cs ih =>
    obtain ⟨head, tail, parts⟩ := List.exists_cons_of_ne_nil (pieces_ne_nil separates cs)
    rw [List.cons_append, pieces, pieces, ih, parts]
    split <;> rfl

theorem pieces_eq_singleton {separates : Char → Bool} {cs : List Char}
    (whole : ∀ c ∈ cs, separates c = false) : pieces separates cs = [cs] := by
  induction cs with
  | nil => rfl
  | cons c cs ih =>
    rw [List.forall_mem_cons] at whole
    simp [pieces, whole.1, ih whole.2]

/-- Blanks end a word, so texts with blanks between them may be cut into words one by one. -/
theorem words_append_blanks {blanks : String} (filled : blanks ≠ "")
    (all : blanks.toList.all isBlank = true) (s t : String) :
    words (s ++ blanks ++ t) = words s ++ words t := by
  have cut (blanks : List Char) (all : blanks.all isBlank = true) :
      (pieces isBlank (blanks ++ t.toList)).filter (!·.isEmpty) =
        (pieces isBlank t.toList).filter (!·.isEmpty) := by
    induction blanks with
    | nil => rfl
    | cons c blanks ih =>
      rw [List.all_cons, Bool.and_eq_true] at all
      rw [List.cons_append, pieces, if_pos all.1]
      exact ih all.2
  cases chars : blanks.toList with
  | nil => exact absurd (String.toList_eq_nil_iff.1 chars) filled
  | cons c blanks =>
    rw [chars, List.all_cons, Bool.and_eq_true] at all
    have split : pieces isBlank (s.toList ++ c :: (blanks ++ t.toList)) =
        pieces isBlank s.toList ++ pieces isBlank (blanks ++ t.toList) :=
      pieces_append_cons all.1 s.toList _
    rw [words, String.toList_append, String.toList_append, chars, List.append_assoc,
      List.cons_append, split, List.filter_append, List.map_append, cut blanks all.2]
    rfl

theorem words_append_space (s t : String) : words (s ++ " " ++ t) = words s ++ words t :=
  words_append_blanks (by decide) (by decide) s t

/-- A word is not empty, and there is no blank in it. -/
theorem word_solid {s word : String} (mem : word ∈ words s) :
    word.toList ≠ [] ∧ ∀ c ∈ word.toList, isBlank c = false := by
  obtain ⟨piece, kept, rfl⟩ := List.mem_map.1 mem
  obtain ⟨mem, filled⟩ := List.mem_filter.1 kept
  rw [String.toList_ofList]
  exact ⟨by simpa using filled, fun c inside => notMem_of_mem_pieces mem inside⟩

section

variable (separator : List Char) {ws : List (List Char)}

theorem head?_intercalate (filled : ∀ word ∈ ws, word ≠ []) :
    (separator.intercalate ws).head? = ws.head?.bind List.head? := by
  match ws with
  | [] => rfl
  | [word] => simp
  | [] :: next :: ws => exact absurd rfl (filled [] List.mem_cons_self)
  | (c :: word) :: next :: ws => rfl

theorem getLast?_intercalate (filled : ∀ word ∈ ws, word ≠ []) :
    (separator.intercalate ws).getLast? = ws.getLast?.bind List.getLast? := by
  induction ws with
  | nil => rfl
  | cons word ws ih =>
    have later : ∀ word ∈ ws, word ≠ [] := fun word mem => filled word (List.mem_cons_of_mem _ mem)
    cases ws with
    | nil => simp
    | cons next ws =>
      have notNil : separator.intercalate (next :: ws) ≠ [] := by
        intro empty
        have first := head?_intercalate separator later
        rw [empty] at first
        exact filled next (by simp) (List.head?_eq_none_iff.1 first.symm)
      rw [List.intercalate_cons_cons, List.getLast?_append_of_ne_nil _ notNil, ih later,
        List.getLast?_cons_cons]

end

/-- Spaced words have no blanks at their ends. -/
theorem trim_spaced_words (s : String) : trim (spaced (words s)) = spaced (words s) := by
  have filled : ∀ word ∈ (words s).map String.toList, word ≠ [] := by
    intro word mem
    obtain ⟨word, held, rfl⟩ := List.mem_map.1 mem
    exact (word_solid held).1
  apply trim_of_ends
  · intro c first
    rw [spaced, String.toList_intercalate, head?_intercalate _ filled] at first
    obtain ⟨word, atStart, first⟩ := Option.bind_eq_some_iff.1 first
    obtain ⟨word, mem, rfl⟩ := List.mem_map.1 (List.mem_of_head? atStart)
    exact (word_solid mem).2 c (List.mem_of_head? first)
  · intro c last
    rw [spaced, String.toList_intercalate, getLast?_intercalate _ filled] at last
    obtain ⟨word, atEnd, last⟩ := Option.bind_eq_some_iff.1 last
    obtain ⟨word, mem, rfl⟩ := List.mem_map.1 (List.mem_of_getLast? atEnd)
    exact (word_solid mem).2 c (List.mem_of_getLast? last)

end Mintage.Text
