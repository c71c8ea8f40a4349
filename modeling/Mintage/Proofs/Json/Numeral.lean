import Mintage.Json.Codec

/-! Natural numbers in JSON: their digits are a number that is kept, and its value is theirs. -/
namespace Mintage.Json

/-- What may stand behind a value: nothing, a comma or a closing bracket. -/
def Closes (rest : List Char) : Prop := ∀ c ∈ rest.head?, c = ',' ∨ c = ']' ∨ c = '}'

theorem closes_nil : Closes [] := nofun

theorem closes_cons {c : Char} (closing : c = ',' ∨ c = ']' ∨ c = '}') (rest : List Char) :
    Closes (c :: rest) := by
  rintro _ ⟨⟩
  exact closing

theorem isSpace_of_isDigit {d : Char} (digit : d.isDigit = true) : isSpace d = false := by
  refine Bool.eq_false_iff.2 fun space => ?_
  simp only [isSpace, Bool.or_eq_true, beq_iff_eq] at space
  rcases space with ((rfl | rfl) | rfl) | rfl <;> exact absurd digit (by decide)

theorem isDigit_of_mem_toDigits {n : Nat} {c : Char} (mem : c ∈ Nat.toDigits 10 n) :
    c.isDigit = true := Nat.isDigit_of_mem_toDigits (by decide) (by decide) mem

theorem exists_toDigits (n : Nat) :
    ∃ d ds, Nat.toDigits 10 n = d :: ds ∧ d.isDigit = true := by
  cases digits : Nat.toDigits 10 n with
  | nil => exact absurd digits Nat.toDigits_ne_nil
  | cons d ds => exact ⟨d, ds, rfl, isDigit_of_mem_toDigits (digits ▸ List.mem_cons_self)⟩

/-- The digits of a number are worth the number. -/
theorem value_toDigits (n : Nat) : Decimal.value (Nat.toDigits 10 n) = n := by
  simp [Decimal.value]

/-- Only zero begins with a zero. -/
theorem head?_toDigits {n : Nat} (pos : 0 < n) : (Nat.toDigits 10 n).head? ≠ some '0' := by
  induction n using Nat.strongRecOn with
  | ind n ih =>
    by_cases small : n < 10
    · have digits : ∀ d < 10, 0 < d → d.digitChar ≠ '0' := by decide
      rw [Nat.toDigits_of_lt_base small]
      simpa using digits n small pos
    · have first := ih (n / 10) (by omega) (by omega)
      obtain ⟨d, ds, same, -⟩ := exists_toDigits (n / 10)
      rw [Nat.toDigits_of_base_le (by decide) (by omega), same]
      rw [same] at first
      exact first

namespace Numeral

/-- More digits never make a number smaller. -/
theorem le_ofDigitChars (ds : List Char) (n : Nat) : n ≤ Nat.ofDigitChars 10 ds n := by
  induction ds generalizing n with
  | nil => exact Nat.le_refl n
  | cons d ds ih =>
    have later := ih (10 * n + (d.toNat - '0'.toNat))
    rw [Nat.ofDigitChars_cons]
    omega

/-- The digits of a number below the bound are all absorbed. -/
theorem absorb_eq {ds : List Char} {n : Nat} (small : Nat.ofDigitChars 10 ds n < UInt64.size) :
    absorb n ds = (Nat.ofDigitChars 10 ds n, 0) := by
  induction ds generalizing n with
  | nil => rfl
  | cons d ds ih =>
    have digit : Decimal.value [d] = d.toNat - '0'.toNat := by
      simp [Decimal.value, Nat.ofDigitChars_cons]
    rw [Nat.ofDigitChars_cons] at small ⊢
    rw [absorb, digit, if_pos (Nat.lt_of_le_of_lt (le_ofDigitChars ds _) small), ih small]

theorem nearest53_le (n : Nat) : nearest53 n ≤ 2 * n + 1 := by
  have unit : Nat.pow 2 (n.log2 - 52) ≤ n + 1 := by
    by_cases zero : n = 0
    · subst zero
      decide
    · have less : Nat.pow 2 (n.log2 - 52) ≤ Nat.pow 2 n.log2 :=
        Nat.pow_le_pow_right (by decide) (Nat.sub_le _ _)
      exact Nat.le_succ_of_le (Nat.le_trans less (Nat.log2_self_le zero))
  have down := Nat.div_mul_le_self n (Nat.pow 2 (n.log2 - 52))
  unfold nearest53
  simp only
  split
  · omega
  · rw [Nat.add_mul, Nat.one_mul]
    omega

/-- A natural number of 64 bits is far from the end of the range. -/
theorem overflows_natural {ds : List Char} (small : Decimal.value ds < UInt64.size) :
    overflows ⟨false, ds, none, none⟩ = false := by
  have whole : absorb 0 ds = (Decimal.value ds, 0) := absorb_eq small
  have near := nearest53_le (Decimal.value ds)
  have far : 2 * UInt64.size < Nat.pow 2 1024 - Nat.pow 2 970 := by decide +kernel
  have below : nearest53 (Decimal.value ds) < Nat.pow 2 1024 - Nat.pow 2 970 := by omega
  have power : ((0 : Nat) : Int) - (([] : List Char).length - 0 : Nat) + 0 = 0 := rfl
  have one : nearest53 (Nat.pow 10 (0 : Int).toNat) = 1 := by decide
  simp only [overflows, whole, Option.getD_none, absorb]
  rw [power, one, Nat.mul_one, decide_eq_false (Nat.not_le.2 below)]
  simp

/-- Digits are read as far as they go. -/
theorem digits_append {ds rest : List Char} (some : ds ≠ []) (all : ∀ c ∈ ds, c.isDigit = true)
    (closes : Closes rest) (atEnd : Fault) : digits atEnd (ds ++ rest) = .ok (ds, rest) := by
  have stop : rest.takeWhile Char.isDigit = [] ∧ rest.dropWhile Char.isDigit = rest := by
    cases rest with
    | nil => exact ⟨rfl, rfl⟩
    | cons c rest => rcases closes c rfl with rfl | rfl | rfl <;> exact ⟨rfl, rfl⟩
  unfold digits
  rw [List.takeWhile_append_of_pos all, List.dropWhile_append_of_pos all, stop.1, stop.2,
    List.append_nil]
  cases ds with
  | nil => exact absurd rfl some
  | cons d ds => rfl

theorem readFraction_of_closes {rest : List Char} (closes : Closes rest) (atEnd : Fault) :
    readFraction atEnd rest = .ok (none, rest) := by
  cases rest with
  | nil => rfl
  | cons c rest => rcases closes c rfl with rfl | rfl | rfl <;> rfl

theorem readExponent_of_closes {rest : List Char} (closes : Closes rest) (atEnd : Fault) :
    readExponent atEnd rest = .ok (none, rest) := by
  cases rest with
  | nil => rfl
  | cons c rest => rcases closes c rfl with rfl | rfl | rfl <;> rfl

/-- A number is read with neither a sign, a fraction nor an exponent. -/
theorem read_toDigits (n : Nat) {rest : List Char} (closes : Closes rest) (atEnd : Fault) :
    read atEnd (Nat.toDigits 10 n ++ rest) =
      .ok (⟨false, Nat.toDigits 10 n, none, none⟩, rest) := by
  have found : digits atEnd (Nat.toDigits 10 n ++ rest) = .ok (Nat.toDigits 10 n, rest) :=
    digits_append Nat.toDigits_ne_nil (fun _ => isDigit_of_mem_toDigits) closes atEnd
  obtain ⟨d, ds, same, digit⟩ := exists_toDigits n
  have unsigned : d ≠ '-' := by
    rintro rfl
    exact absurd digit (by decide)
  have leading : 0 < ds.length → d ≠ '0' := by
    rintro long rfl
    by_cases pos : 0 < n
    · exact head?_toDigits pos (by rw [same]; rfl)
    · rw [Nat.eq_zero_of_not_pos pos] at same
      cases same
      exact absurd long (by decide)
  rw [same, List.cons_append] at found ⊢
  unfold read
  split
  rename_i negative cs sign
  split at sign
  · rename_i heq
    cases heq
    exact absurd rfl unsigned
  · cases sign
    simpa [found, readFraction_of_closes closes, readExponent_of_closes closes, bind, Except.bind]
      using leading

theorem readKept_toDigits {n : Nat} (small : n < UInt64.size) {rest : List Char}
    (closes : Closes rest) :
    readKept (Nat.toDigits 10 n ++ rest) =
      .ok (⟨false, Nat.toDigits 10 n, none, none⟩, rest) := by
  have fits : overflows ⟨false, Nat.toDigits 10 n, none, none⟩ = false :=
    overflows_natural ((value_toDigits n).symm ▸ small)
  simp [readKept, read_toDigits n closes, fits, bind, Except.bind]

end Numeral

/-- Below its limit a number is read back. -/
theorem readNat_toDigits {n limit : Nat} (le : n ≤ limit) (small : limit < UInt64.size)
    {rest : List Char} (closes : Closes rest) :
    Codec.readNat limit (Nat.toDigits 10 n ++ rest) = .ok (n, rest) := by
  have kept := Numeral.readKept_toDigits (Nat.lt_of_le_of_lt le small) closes
  have value := value_toDigits n
  obtain ⟨d, ds, same, digit⟩ := exists_toDigits n
  rw [same] at kept value ⊢
  rw [List.cons_append] at kept ⊢
  simp [Codec.readNat, dropSpace, isSpace_of_isDigit digit, digit, kept, Numeral.natural?, value,
    le, bind, Except.bind]

end Mintage.Json
