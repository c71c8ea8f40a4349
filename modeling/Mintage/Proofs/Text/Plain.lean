import Mintage.Proofs.Text.Lexeme
import Mintage.Proofs.Text.Words

/-! Texts of plain characters: single words without blanks. -/
namespace Mintage.Text

/-- The text may be empty. -/
def isPlainText (s : String) : Bool := s.toList.all isPlain

/-- A text that is one word. -/
def isWord (s : String) : Bool := !s.isEmpty && isPlainText s

theorem isPlain_of_continuesName {c : Char} (continues : continuesName c = true) :
    isPlain c = true := by
  rw [isPlain, continues, Bool.true_or]

/-- No character of a name is a blank: blanks are told by their codes, name characters by theirs. -/
theorem isBlank_of_continuesName {c : Char} (continues : continuesName c = true) :
    isBlank c = false := by
  change (((decide (c.val ≥ 65 ∧ c.val ≤ 90) ||
    (decide (c.val ≥ 97) && decide (c.val ≤ 122))) ||
    (decide (c.val ≥ 48) && decide (c.val ≤ 57))) || c == '$' || c == '_') = true at continues
  simp only [Bool.or_eq_true, Bool.and_eq_true, decide_eq_true_eq, beq_iff_eq, ge_iff_le,
    UInt32.le_iff_toNat_le] at continues
  change ((((65 ≤ c.toNat ∧ c.toNat ≤ 90) ∨ (97 ≤ c.toNat ∧ c.toNat ≤ 122)) ∨
    (48 ≤ c.toNat ∧ c.toNat ≤ 57)) ∨ c = '$') ∨ c = '_' at continues
  rcases continues with (ascii | rfl) | rfl
  · simp only [isBlank, blankRanges, List.any_cons, List.any_nil, Bool.or_eq_false_iff,
      Bool.and_eq_false_iff, decide_eq_false_iff_not, and_true]
    omega
  · decide
  · decide

theorem isBlank_of_isPlain {c : Char} (plain : isPlain c = true) : isBlank c = false := by
  simp only [isPlain, Bool.or_eq_true, Bool.and_eq_true, Bool.not_eq_true'] at plain
  rcases plain with continues | ⟨-, solid⟩
  · exact isBlank_of_continuesName continues
  · exact solid

/-- A name has a first character, and it is not a digit. -/
theorem exists_of_isName {s : String} (name : isName s = true) :
    ∃ c cs, s.toList = c :: cs ∧ startsName c = true ∧ cs.all continuesName = true := by
  unfold isName at name
  cases chars : s.toList with
  | nil => simp [chars] at name
  | cons c cs =>
    rw [chars, Bool.and_eq_true] at name
    exact ⟨c, cs, rfl, name⟩

theorem all_of_isName {s : String} (name : isName s = true) :
    s.toList.all continuesName = true := by
  obtain ⟨c, cs, chars, starts, rest⟩ := exists_of_isName name
  rw [chars, List.all_cons, continuesName_of_startsName starts, rest]
  rfl

theorem ne_empty_of_isName {s : String} (name : isName s = true) : s ≠ "" := by
  rintro rfl
  cases name

/-- A digit does not start a name. -/
theorem isDigit_of_startsName {c : Char} (starts : startsName c = true) : c.isDigit = false := by
  change ((decide (c.val ≥ 65 ∧ c.val ≤ 90) || (decide (c.val ≥ 97) && decide (c.val ≤ 122))) ||
    c == '$' || c == '_') = true at starts
  simp only [Bool.or_eq_true, Bool.and_eq_true, decide_eq_true_eq, beq_iff_eq, ge_iff_le,
    UInt32.le_iff_toNat_le] at starts
  change (((65 ≤ c.toNat ∧ c.toNat ≤ 90) ∨ (97 ≤ c.toNat ∧ c.toNat ≤ 122)) ∨ c = '$') ∨ c = '_'
    at starts
  change (decide (c.val ≥ 48) && decide (c.val ≤ 57)) = false
  rcases starts with (letter | rfl) | rfl
  · simp only [ge_iff_le, UInt32.le_iff_toNat_le, Bool.and_eq_false_iff, decide_eq_false_iff_not]
    change ¬ 48 ≤ c.toNat ∨ ¬ c.toNat ≤ 57
    omega
  · decide
  · decide

theorem all_continuesName_of_digits {cs : List Char} (digits : cs.all Char.isDigit = true) :
    cs.all continuesName = true := by
  refine List.all_eq_true.2 fun c mem => ?_
  simp [continuesName, Char.isAlphanum, List.all_eq_true.1 digits c mem]

/-- Numbers are written in characters of names. -/
theorem all_continuesName_toString (n : Nat) :
    (toString n).toList.all continuesName = true := by
  refine all_continuesName_of_digits (List.all_eq_true.2 fun c mem => ?_)
  have printed : c ∈ Nat.toDigits 10 n := by simpa using mem
  exact Nat.isDigit_of_mem_toDigits (by decide) (by decide) printed

theorem isPlainText_toString (n : Nat) : isPlainText (toString n) = true :=
  List.all_eq_true.2 fun c mem =>
    isPlain_of_continuesName (List.all_eq_true.1 (all_continuesName_toString n) c mem)

theorem isPlainText_append {s t : String} (first : isPlainText s = true)
    (second : isPlainText t = true) : isPlainText (s ++ t) = true := by
  rw [isPlainText, String.toList_append, List.all_append, Bool.and_eq_true]
  exact ⟨first, second⟩

/-- Nothing is trimmed from a plain text. -/
theorem trim_of_isPlainText {s : String} (plain : isPlainText s = true) : trim s = s := by
  have solid (c : Char) (mem : c ∈ s.toList) : isBlank c = false :=
    isBlank_of_isPlain (List.all_eq_true.1 plain c mem)
  exact trim_of_ends (fun c first => solid c (List.mem_of_head? first))
    fun c last => solid c (List.mem_of_getLast? last)

theorem isToken_of_isWord {s : String} (word : isWord s = true) : IsToken s := by
  simp only [isWord, Bool.and_eq_true, Bool.not_eq_true', String.isEmpty_eq_false_iff] at word
  exact ⟨word.1, fun c mem => isBlank_of_isPlain (List.all_eq_true.1 word.2 c mem)⟩

/-- A word is not cut. -/
theorem words_of_isWord {s : String} (word : isWord s = true) : words s = [s] :=
  words_of_isToken (isToken_of_isWord word)

/-- A plain text is the only word in it. -/
theorem spaced_words_of_isPlainText {s : String} (plain : isPlainText s = true) :
    spaced (words s) = s := by
  cases empty : s.isEmpty with
  | true =>
    rw [String.isEmpty_iff.1 empty]
    decide
  | false => rw [words_of_isWord (by simp [isWord, empty, plain]), spaced_singleton]

theorem run_word {cs : List Char} (plain : cs.all isPlain = true) (run : List Char) :
    (Lexer.word run).run cs = ([], .word (cs.reverse ++ run)) := by
  induction cs generalizing run with
  | nil => rfl
  | cons c cs ih =>
    rw [List.all_cons, Bool.and_eq_true] at plain
    rw [Lexer.run_cons, Lexer.step, if_pos plain.1, ih plain.2]
    simp

theorem run_isWord {s : String} (word : isWord s = true) :
    Lexer.code.run s.toList = ([], .word s.toList.reverse) := by
  simp only [isWord, Bool.and_eq_true, Bool.not_eq_true'] at word
  obtain ⟨filled, plain⟩ := word
  cases chars : s.toList with
  | nil =>
    have empty : s = "" := String.toList_eq_nil_iff.1 chars
    rw [empty] at filled
    cases filled
  | cons c cs =>
    rw [isPlainText, chars, List.all_cons, Bool.and_eq_true] at plain
    rw [Lexer.run_cons, Lexer.step, Lexer.start, if_pos plain.1, run_word plain.2]
    simp

/-- The reader takes a word as one lexeme. -/
theorem lexemes_isWord {s : String} (word : isWord s = true) : lexemes s.toList = [.word s] := by
  rw [lexemes, run_isWord word]
  simp [Lexer.pending]

/-- The name of a contract is a word, whatever its title is. -/
theorem isWord_contractName (title : String) : isWord (contractName title) = true := by
  unfold contractName
  split
  · decide
  · rename_i name filled
    have plain : isPlainText (String.ofList ((title.toList.filter continuesName).dropWhile
        (!startsName ·))) = true := by
      rw [isPlainText, String.toList_ofList, List.all_eq_true]
      intro c mem
      have legal := (List.dropWhile_sublist _).subset mem
      exact isPlain_of_continuesName (List.mem_filter.1 legal).2
    rw [isWord, plain, Bool.and_true]
    simpa using filled

end Mintage.Text
