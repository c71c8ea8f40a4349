import Mathlib.Algebra.Order.Field.Rat
import Mathlib.Data.List.TakeWhile
import Mathlib.Tactic.FieldSimp
import Mathlib.Tactic.Linarith
import Mathlib.Tactic.NormNum
import Mathlib.Tactic.Ring
import Mintage.Proofs.Json.Numeral
import Mintage.Settings.Derived

/-! Amounts are read exactly: which texts are amounts, and that the number of units is the rational
number that the text denotes, as long as it fits into a word of 128 bits. -/
namespace Mintage

namespace Decimal

/-- A text of digits with at most one point: the digits in front of it and those behind it, of which
there is at least one. -/
structure Reads (text : String) (whole fraction : List Char) : Prop where
  chars : text.toList = whole ∧ fraction = [] ∨ text.toList = whole ++ '.' :: fraction
  digits : ∀ c ∈ whole ++ fraction, c.isDigit = true
  digit : whole ++ fraction ≠ []

/-- The rational number that digits in front of a point and behind it denote. -/
def amount (whole fraction : List Char) : ℚ := value (whole ++ fraction) / 10 ^ fraction.length

theorem ne_point_of_isDigit {c : Char} (digit : c.isDigit = true) : (c != '.') = true := by
  rw [bne_iff_ne]
  rintro rfl
  exact absurd digit (by decide)

theorem Reads.isEmpty_eq_false {text : String} {whole fraction : List Char}
    (reads : Reads text whole fraction) : text.isEmpty = false := by
  refine Bool.eq_false_iff.2 fun empty => reads.digit ?_
  have none : text.toList = [] := by
    rw [String.isEmpty_iff.1 empty]
    rfl
  rcases reads.chars with ⟨chars, rfl⟩ | chars
  · rw [← chars, none, List.append_nil]
  · simp [chars] at none

/-- The digits are told apart at the point, or there is none. -/
theorem Reads.parts_eq {text : String} {whole fraction : List Char}
    (reads : Reads text whole fraction) : parts text = (whole, fraction) := by
  have free : ∀ c ∈ whole, (c != '.') = true := fun c mem =>
    ne_point_of_isDigit (reads.digits c (List.mem_append_left _ mem))
  unfold parts
  rcases reads.chars with ⟨chars, none⟩ | chars
  · simp only [chars, none, List.takeWhile_eq_self_iff.2 free, List.dropWhile_eq_nil_iff.2 free]
    rfl
  · simp only [chars, List.takeWhile_append_of_pos free, List.dropWhile_append_of_pos free]
    simp

theorem reads_parts {text : String} {whole fraction : List Char}
    (cut : parts text = (whole, fraction)) (digits : ∀ c ∈ whole ++ fraction, c.isDigit = true)
    (digit : whole ++ fraction ≠ []) : Reads text whole fraction := by
  refine ⟨?_, digits, digit⟩
  obtain ⟨rfl, rfl⟩ := Prod.mk.inj cut
  have chars := text.toList.takeWhile_append_dropWhile (p := (· != '.'))
  have stop := text.toList.head?_dropWhile_not (p := (· != '.'))
  cases rest : text.toList.dropWhile (· != '.') with
  | nil => exact .inl ⟨by rw [rest, List.append_nil] at chars; exact chars.symm, rfl⟩
  | cons c cs =>
    have point : c = '.' := by simpa [rest] using stop
    exact .inr (by rw [rest, point] at chars; exact chars.symm)

theorem reads_iff {text : String} {whole fraction : List Char} :
    Reads text whole fraction ↔ parts text = (whole, fraction) ∧
      (whole ++ fraction).all Char.isDigit = true ∧ whole ++ fraction ≠ [] :=
  ⟨fun reads => ⟨reads.parts_eq, List.all_eq_true.2 reads.digits, reads.digit⟩,
    fun ⟨cut, digits, digit⟩ => reads_parts cut (List.all_eq_true.1 digits) digit⟩

/-- The number of units of an amount with so many places. -/
def units (places : Nat) (whole fraction : List Char) : Nat :=
  value whole * Nat.pow 10 places + value fraction * Nat.pow 10 (places - fraction.length)

theorem value_append (ds es : List Char) :
    value (ds ++ es) = value ds * 10 ^ es.length + value es := by
  unfold value
  rw [Nat.ofDigitChars_append, Nat.ofDigitChars_eq_ofDigitChars_zero, Nat.mul_comm]

/-- Scaled up, the number of units is the amount, as long as no digit is lost. -/
theorem cast_units {places : Nat} (whole : List Char) {fraction : List Char}
    (fits : fraction.length ≤ places) :
    (units places whole fraction : ℚ) = amount whole fraction * 10 ^ places := by
  obtain ⟨more, rfl⟩ := Nat.exists_eq_add_of_le fits
  have shift : fraction.length + more - fraction.length = more := Nat.add_sub_cancel_left _ _
  simp only [units, amount, value_append, shift, Nat.pow_eq]
  push_cast
  field_simp
  ring

/-- An amount is read if it has no more places than there are units, and if they fit in a word. -/
theorem read?_eq_some_iff {places : Nat} {text : String} {n : Nat} :
    read? places text = some n ↔ ∃ whole fraction, Reads text whole fraction ∧
      fraction.length ≤ places ∧ units places whole fraction ≤ ceiling ∧
      n = units places whole fraction := by
  constructor
  · intro read
    obtain ⟨whole, fraction, cut⟩ : ∃ whole fraction, parts text = (whole, fraction) := ⟨_, _, rfl⟩
    simp only [read?, cut] at read
    split at read
    · cases read
    · rename_i accepted
      simp only [Bool.or_eq_true, not_or, Bool.not_eq_true, Bool.not_eq_false',
        List.isEmpty_eq_false_iff, decide_eq_true_eq, Nat.not_lt] at accepted
      obtain ⟨⟨digit, digits⟩, fits⟩ := accepted
      split at read
      · rename_i small
        cases read
        exact ⟨whole, fraction, reads_iff.2 ⟨cut, digits, digit⟩, fits, small, rfl⟩
      · cases read
  · rintro ⟨whole, fraction, reads, fits, small, rfl⟩
    obtain ⟨cut, digits, digit⟩ := reads_iff.1 reads
    simp only [read?, cut, digits, List.isEmpty_eq_false_iff.2 digit,
      decide_eq_false (Nat.not_lt.2 fits)]
    exact if_pos small

/-- A number, if a word of 128 bits holds it. -/
def word? (n : Nat) : Option Nat := if n ≤ ceiling then some n else none

/-- The number of digits behind a number, with a check of each product and sum. -/
def absorb? (n : Nat) : List Char → Option Nat
  | [] => some n
  | d :: ds => do
    let shifted ← word? (10 * n)
    absorb? (← word? (shifted + (d.toNat - '0'.toNat))) ds

/-- An amount is read in words of 128 bits, with a check of each power, product and sum. -/
def stepwise? (places : Nat) (text : String) : Option Nat :=
  let (whole, fraction) := parts text
  if (whole ++ fraction).isEmpty || !(whole ++ fraction).all Char.isDigit
      || fraction.length > places then none
  else do
    let scale ← word? (10 ^ places)
    let ones ← absorb? 0 whole
    let padding ← word? (10 ^ (places - fraction.length))
    let rest ← word? ((← absorb? 0 fraction) * padding)
    word? ((← word? (ones * scale)) + rest)

/-- A check adds nothing where a larger number is checked behind it. -/
theorem word?_bind {n m : Nat} (le : n ≤ m) {next : Nat → Option Nat}
    (checked : n ≤ ceiling → next n = word? m) : (word? n).bind next = word? m := by
  unfold word?
  split
  · rename_i small
    exact checked small
  · rename_i large
    rw [if_neg fun small => large (Nat.le_trans le small)]
    rfl

/-- As soon as a number does not fit, no longer one does, so it is enough to check the last. -/
theorem absorb?_eq {n : Nat} (small : n ≤ ceiling) (ds : List Char) :
    absorb? n ds = word? (Nat.ofDigitChars 10 ds n) := by
  induction ds generalizing n with
  | nil => exact (if_pos small).symm
  | cons d ds ih =>
    have more := Json.Numeral.le_ofDigitChars ds (10 * n + (d.toNat - '0'.toNat))
    rw [Nat.ofDigitChars_cons]
    refine word?_bind (by omega) fun _ => word?_bind more fun small => ih small

theorem value_lt {ds : List Char} (digits : ∀ c ∈ ds, c.isDigit = true) :
    value ds < 10 ^ ds.length := by
  induction ds with
  | nil => decide
  | cons d ds ih =>
    have first : value [d] < 10 := by
      have range := Char.isDigit_iff_toNat.1 (digits d List.mem_cons_self)
      have nine : '9'.toNat = '0'.toNat + 9 := rfl
      simp only [value, Nat.ofDigitChars_cons, Nat.ofDigitChars_nil]
      omega
    have later := ih fun c mem => digits c (List.mem_cons_of_mem _ mem)
    have split := value_append [d] ds
    rw [List.singleton_append] at split
    rw [split, List.length_cons, Nat.pow_succ]
    nlinarith

/-- The checks of the steps refuse an amount only where the units overflow. -/
theorem stepwise?_eq {places : Nat} (scale : 10 ^ places ≤ ceiling) (text : String) :
    stepwise? places text = read? places text := by
  obtain ⟨whole, fraction, cut⟩ : ∃ whole fraction, parts text = (whole, fraction) := ⟨_, _, rfl⟩
  simp only [stepwise?, read?, cut]
  split
  · rfl
  · rename_i accepted
    simp only [Bool.or_eq_true, not_or, Bool.not_eq_true, Bool.not_eq_false',
      decide_eq_true_eq, Nat.not_lt] at accepted
    obtain ⟨⟨-, digits⟩, fits⟩ := accepted
    have fractionDigits := value_lt fun c mem =>
      List.all_eq_true.1 digits c (List.mem_append_right whole mem)
    have below : value fraction * 10 ^ (places - fraction.length) < 10 ^ places := by
      calc value fraction * 10 ^ (places - fraction.length)
          < 10 ^ fraction.length * 10 ^ (places - fraction.length) :=
            Nat.mul_lt_mul_of_pos_right fractionDigits (Nat.pow_pos (by decide))
        _ = 10 ^ places := by rw [← Nat.pow_add, Nat.add_sub_cancel' fits]
    have padding : 10 ^ (places - fraction.length) ≤ 10 ^ places :=
      Nat.pow_le_pow_right (by decide) (Nat.sub_le _ _)
    have row : value fraction ≤ value fraction * 10 ^ (places - fraction.length) :=
      Nat.le_mul_of_pos_right _ (Nat.pow_pos (by decide))
    have ones : value whole ≤ value whole * 10 ^ places :=
      Nat.le_mul_of_pos_right _ (Nat.pow_pos (by decide))
    have holds {n : Nat} (le : n ≤ 10 ^ places) : word? n = some n :=
      if_pos (Nat.le_trans le scale)
    have zero : 0 ≤ ceiling := Nat.zero_le _
    have readWhole : absorb? 0 whole = word? (value whole) := absorb?_eq zero whole
    have readFraction : absorb? 0 fraction = word? (value fraction) := absorb?_eq zero fraction
    simp only [holds (Nat.le_refl _), holds padding, readWhole, readFraction,
      holds (Nat.le_trans row below.le), holds below.le, Option.bind_eq_bind, Option.bind_some]
    exact word?_bind (Nat.le_trans ones (Nat.le_add_right _ _)) fun _ =>
      word?_bind (Nat.le_add_right _ _) fun _ => rfl

end Decimal

namespace Settings

open Decimal

theorem readPrice?_eq_some_iff {text : String} {n : Nat} :
    readPrice? text = some n ↔ ∃ whole fraction, Reads text whole fraction ∧
      fraction.length ≤ 18 ∧ amount whole fraction * 10 ^ 18 ≤ 2 ^ 128 - 1 ∧
      (n : ℚ) = amount whole fraction * 10 ^ 18 := by
  have ceiling_eq : (ceiling : ℚ) = 2 ^ 128 - 1 := by norm_num [ceiling]
  rw [readPrice?, read?_eq_some_iff]
  refine exists_congr fun whole => exists_congr fun fraction => and_congr_right fun _ =>
    and_congr_right fun fits => ?_
  rw [← cast_units whole fits, ← ceiling_eq, Nat.cast_le, Nat.cast_inj]

theorem royalty?_eq_some_iff {s : Settings} {points : Nat} :
    s.royalty? = some points ↔ ∃ royalty whole fraction, s.royalty = some royalty ∧
      Reads (Text.trim royalty) whole fraction ∧ fraction.length ≤ 2 ∧
      0 < amount whole fraction ∧ amount whole fraction ≤ 100 ∧
      (points : ℚ) = 100 * amount whole fraction := by
  rw [royalty?, Option.filter_eq_some_iff, Option.bind_eq_some_iff, decide_eq_true_eq, wholeRoyalty]
  constructor
  · rintro ⟨⟨text, given, read⟩, positive, small⟩
    obtain ⟨royalty, found, rfl⟩ := Option.map_eq_some_iff.1 (Option.filter_eq_some_iff.1 given).1
    obtain ⟨whole, fraction, reads, fits, -, rfl⟩ := read?_eq_some_iff.1 read
    have value := cast_units whole fits
    have positive : (0 : ℚ) < units 2 whole fraction := Nat.cast_pos.2 positive
    have small : (units 2 whole fraction : ℚ) ≤ 10000 := by exact_mod_cast small
    refine ⟨royalty, whole, fraction, found, reads, fits, ?_, ?_, ?_⟩ <;> linarith
  · rintro ⟨royalty, whole, fraction, found, reads, fits, positive, small, exactly⟩
    have value := cast_units whole fits
    have same : points = units 2 whole fraction := by
      have cast : (points : ℚ) = units 2 whole fraction := by linarith
      exact_mod_cast cast
    have above : (0 : ℚ) < points := by linarith
    have below : (points : ℚ) ≤ 10000 := by linarith
    have bounds : 0 < points ∧ points ≤ 10000 := by exact_mod_cast And.intro above below
    have word : points ≤ ceiling := Nat.le_trans bounds.2 (by decide)
    refine ⟨⟨Text.trim royalty, ?_, read?_eq_some_iff.2
      ⟨whole, fraction, reads, fits, same ▸ word, same⟩⟩, bounds⟩
    rw [royaltyText?, Text.content?, found, Option.map_some, Option.filter_eq_some_iff]
    exact ⟨rfl, by rw [reads.isEmpty_eq_false]; rfl⟩

/-- A price is read if and only if it is a row of digits with at most one point, at least one digit
and at most eighteen places, whose value in wei fits into a word of 128 bits, and is read as that
value. A royalty is read if and only if, without the blanks at its ends, it is such a row with at
most two places whose value lies above zero and not above a hundred, and is read as that value in
basis points. No check between the steps refuses anything else. -/
theorem amounts_exact :
    (∀ (text : String) (wei : Nat), readPrice? text = some wei ↔
      ∃ whole fraction, Reads text whole fraction ∧ fraction.length ≤ 18 ∧
        amount whole fraction * 10 ^ 18 ≤ 2 ^ 128 - 1 ∧
        (wei : ℚ) = amount whole fraction * 10 ^ 18) ∧
    (∀ (s : Settings) (points : Nat), s.royalty? = some points ↔
      ∃ royalty whole fraction, s.royalty = some royalty ∧
        Reads (Text.trim royalty) whole fraction ∧ fraction.length ≤ 2 ∧
        0 < amount whole fraction ∧ amount whole fraction ≤ 100 ∧
        (points : ℚ) = 100 * amount whole fraction) ∧
    stepwise? 18 = readPrice? ∧ stepwise? 2 = read? 2 := by
  refine ⟨fun text wei => readPrice?_eq_some_iff, fun s points => royalty?_eq_some_iff, ?_, ?_⟩
  · funext text
    exact stepwise?_eq (by decide) text
  · funext text
    exact stepwise?_eq (by decide) text

example : ["00.05", ".5", "1.", "1.2.3", "."].map (stepwise? 2) =
    [some 5, some 50, some 100, none, none] := by decide +kernel

end Settings

end Mintage
