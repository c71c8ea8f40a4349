import Mintage.Json.Text

/-! Strings in JSON are read back as they were written, whatever characters they hold and whatever
stands behind them. -/
namespace Mintage.Json

theorem hexValue?_hexDigit {n : Nat} (small : n < 16) : hexValue? (hexDigit n) = some n := by
  revert n
  decide

/-- Two hexadecimal digits behind two zeros are long enough and denote their number. -/
theorem quad_hexDigits {n : Nat} (small : n < 0x100) (rest : List Char) :
    quad ('0' :: '0' :: hexDigit (n / 16) :: hexDigit (n % 16) :: rest) = .ok n := by
  have head : ('0' :: '0' :: hexDigit (n / 16) :: hexDigit (n % 16) :: rest).take 4 =
      ['0', '0', hexDigit (n / 16), hexDigit (n % 16)] := rfl
  have long : ¬(String.ofList
      ['0', '0', hexDigit (n / 16), hexDigit (n % 16)]).utf8ByteSize < 4 := by
    have first := (hexDigit (n / 16)).utf8Size_pos
    have second := (hexDigit (n % 16)).utf8Size_pos
    have one : "0".utf8ByteSize = 1 := by decide
    simp
    omega
  have zero : hexValue? '0' = some 0 := by decide
  have high := hexValue?_hexDigit (n := n / 16) (by omega)
  have low := hexValue?_hexDigit (n := n % 16) (by omega)
  have sum : 16 * (n / 16) + n % 16 = n := by omega
  unfold quad
  simp only [head]
  rw [if_neg long]
  simp [zero, high, low, sum]

theorem coded_hexDigits {n : Nat} (small : n < 0x100) (rest : List Char) :
    coded ('0' :: '0' :: hexDigit (n / 16) :: hexDigit (n % 16) :: rest) =
      .ok (Char.ofNat n, 4) := by
  have leading : isLeading n = false := by
    simp only [isLeading, Bool.and_eq_false_iff, decide_eq_false_iff_not]
    omega
  have trailing : isTrailing n = false := by
    simp only [isTrailing, Bool.and_eq_false_iff, decide_eq_false_iff_not]
    omega
  simp [coded, quad_hexDigits small, leading, trailing, bind, Except.bind]

theorem unescapes_of_escapes {c letter : Char} (found : escapes.lookup c = some letter) :
    letter ≠ 'u' ∧ unescapes.lookup letter = some c := by
  have all : ∀ entry ∈ escapes, entry.2 ≠ 'u' ∧ unescapes.lookup entry.2 = some entry.1 := by
    decide
  obtain ⟨before, after, same, -⟩ := List.lookup_eq_some_iff.1 found
  exact all (c, letter) (by simp [same])

/-- A character is read from what is written for it, by its letter, by its code or as it is. -/
theorem character_escape (c : Char) (rest : List Char) :
    character coded (escape c ++ rest) = .ok (c, (escape c).length) := by
  unfold escape
  split
  · rename_i letter found
    obtain ⟨plain, back⟩ := unescapes_of_escapes found
    simp [character, plain, back]
  · rename_i missing
    split
    · rename_i control
      have code := coded_hexDigits (n := c.toNat) (by omega) rest
      simp [character, code, bind, Except.bind]
    · rename_i visible
      have slash : c ≠ '\\' := by
        rintro rfl
        exact absurd missing (by decide)
      simp [character, slash, visible]

/-- No character is written so that it could end the string. -/
theorem exists_escape_eq (c : Char) : ∃ first more, escape c = first :: more ∧ first ≠ '"' := by
  unfold escape
  split
  · exact ⟨'\\', _, rfl, by decide⟩
  · rename_i missing
    split
    · exact ⟨'\\', _, rfl, by decide⟩
    · refine ⟨c, [], rfl, ?_⟩
      rintro rfl
      exact absurd missing (by decide)

/-- The characters that have been read before are passed over. -/
theorem characters_append (code : Spelling) (known rest : List Char) :
    characters code known.length (known ++ rest) = characters code 0 rest := by
  induction known with
  | nil => rfl
  | cons c known ih => exact ih

theorem characters_escape (c : Char) (rest : List Char) :
    characters coded 0 (escape c ++ rest) =
      (characters coded 0 rest).map fun d => (c :: d.1, d.2) := by
  have read := character_escape c rest
  obtain ⟨first, more, same, inside⟩ := exists_escape_eq c
  rw [same, List.cons_append] at read
  rw [same, List.cons_append, characters, if_neg inside, read]
  simp only [bind, Except.bind, List.length_cons, Nat.add_sub_cancel, characters_append]
  cases characters coded 0 rest <;> rfl

theorem characters_write (cs rest : List Char) :
    characters coded 0 (cs.flatMap escape ++ '"' :: rest) = .ok (cs, rest) := by
  induction cs with
  | nil => rfl
  | cons c cs ih =>
    rw [List.flatMap_cons, List.append_assoc, characters_escape, ih]
    rfl

/-- A string is read back up to its closing quote. -/
theorem string_write (s : String) (rest : List Char) :
    string (s.toList.flatMap escape ++ '"' :: rest) = .ok (s, rest) := by
  simp [string, characters_write, bind, Except.bind]

end Mintage.Json
