import Mathlib.Computability.RegularExpressions
import Mathlib.Data.List.TakeWhile
import Mintage.Proofs.Text.Plain

/-! The name of a contract is always legal, and it keeps as much of the title as a name can. -/
namespace Mintage.Text

/-- The characters from one to another, both included. -/
def charsBetween (first last : Char) : List Char :=
  (List.range' first.toNat (last.toNat + 1 - first.toNat)).map Char.ofNat

/-- The characters with which a name may begin. -/
def nameStarts : List Char := charsBetween 'A' 'Z' ++ charsBetween 'a' 'z' ++ ['$', '_']

/-- The legal characters of a name. -/
def nameChars : List Char :=
  charsBetween 'A' 'Z' ++ charsBetween 'a' 'z' ++ charsBetween '0' '9' ++ ['$', '_']

/-- One character out of several. -/
def oneOf (cs : List Char) : RegularExpression Char := (cs.map RegularExpression.char).sum

/-- The expression `[A-Za-z$_][A-Za-z0-9$_]*`. -/
def namePattern : RegularExpression Char := oneOf nameStarts * (oneOf nameChars).star

/-- What is left of a title without its illegal characters. -/
def legalPart (title : String) : List Char := title.toList.filter nameChars.contains

/-- The text begins with one of the characters. -/
def BeginsWith (starts cs : List Char) : Prop := ∃ c ∈ cs.head?, c ∈ starts

/-- The longest of the suffixes that begin with one of the characters. -/
structure LongestSuffix (starts cs found : List Char) : Prop where
  suffix : found <:+ cs
  begins : BeginsWith starts found
  longest : ∀ other, other <:+ cs → BeginsWith starts other → other.length ≤ found.length

theorem toNat_ofNat_of_lt {n : Nat} (ascii : n < 128) : (Char.ofNat n).toNat = n := by
  have valid : n.isValidChar := .inl (by omega)
  rw [Char.ofNat, dif_pos valid]
  exact UInt32.toNat_ofNatLT ..

/-- A range of characters is a range of their codes. -/
theorem mem_charsBetween {first last : Char} (ascii : last.toNat < 128) {c : Char} :
    c ∈ charsBetween first last ↔ first.toNat ≤ c.toNat ∧ c.toNat ≤ last.toNat := by
  simp only [charsBetween, List.mem_map, List.mem_range'_1]
  constructor
  · rintro ⟨n, bounds, rfl⟩
    rw [toNat_ofNat_of_lt (by omega)]
    omega
  · intro bounds
    exact ⟨c.toNat, by omega, Char.ofNat_toNat c⟩

theorem isAlpha_iff {c : Char} :
    c.isAlpha = true ↔ c ∈ charsBetween 'A' 'Z' ∨ c ∈ charsBetween 'a' 'z' := by
  rw [mem_charsBetween (by decide), mem_charsBetween (by decide)]
  change (decide (c.val ≥ 65 ∧ c.val ≤ 90) || (decide (c.val ≥ 97) && decide (c.val ≤ 122))) = true
    ↔ _
  simp only [Bool.or_eq_true, Bool.and_eq_true, decide_eq_true_eq, ge_iff_le,
    UInt32.le_iff_toNat_le]
  rfl

theorem isDigit_iff {c : Char} : c.isDigit = true ↔ c ∈ charsBetween '0' '9' := by
  rw [mem_charsBetween (by decide), Char.isDigit_iff_toNat]

theorem mem_nameStarts {c : Char} : c ∈ nameStarts ↔ startsName c = true := by
  simp [nameStarts, startsName, isAlpha_iff, or_assoc]

theorem mem_nameChars {c : Char} : c ∈ nameChars ↔ continuesName c = true := by
  simp [nameChars, continuesName, Char.isAlphanum, isAlpha_iff, isDigit_iff, or_assoc]

/-- One character out of several is a text of one of them. -/
theorem mem_matches_oneOf {cs s : List Char} :
    s ∈ (oneOf cs).matches' ↔ ∃ c ∈ cs, s = [c] := by
  induction cs with
  | nil => simp [oneOf]
  | cons d cs ih =>
    have split : (oneOf (d :: cs)).matches' = {[d]} + (oneOf cs).matches' := rfl
    have first : s ∈ ({[d]} : Language Char) ↔ s = [d] := Iff.rfl
    rw [split, Language.mem_add, first, ih]
    simp

/-- A repetition matches the texts of these characters and no others, by induction on its length. -/
theorem mem_matches_star_oneOf {cs s : List Char} :
    s ∈ (oneOf cs).star.matches' ↔ ∀ c ∈ s, c ∈ cs := by
  rw [RegularExpression.matches'_star, Language.mem_kstar]
  constructor
  · rintro ⟨parts, rfl, each⟩ c mem
    obtain ⟨part, listed, inside⟩ := List.mem_flatten.1 mem
    obtain ⟨d, known, rfl⟩ := mem_matches_oneOf.1 (each part listed)
    exact List.mem_singleton.1 inside ▸ known
  · intro all
    refine ⟨s.map ([·]), (List.flatMap_singleton' s).symm, fun part listed => ?_⟩
    obtain ⟨c, mem, rfl⟩ := List.mem_map.1 listed
    exact mem_matches_oneOf.2 ⟨c, all c mem, rfl⟩

/-- A name is what the expression matches. -/
theorem isName_iff {s : String} : isName s = true ↔ s.toList ∈ namePattern.matches' := by
  rw [namePattern, RegularExpression.matches'_mul, Language.mem_mul]
  constructor
  · intro name
    obtain ⟨c, cs, chars, starts, rest⟩ := exists_of_isName name
    refine ⟨[c], mem_matches_oneOf.2 ⟨c, mem_nameStarts.2 starts, rfl⟩, cs, ?_, chars.symm⟩
    exact mem_matches_star_oneOf.2 fun d mem => mem_nameChars.2 (List.all_eq_true.1 rest d mem)
  · rintro ⟨first, begins, rest, continues, chars⟩
    obtain ⟨c, starts, rfl⟩ := mem_matches_oneOf.1 begins
    have all := mem_matches_star_oneOf.1 continues
    rw [isName, ← chars]
    exact Bool.and_eq_true_iff.2 ⟨mem_nameStarts.1 starts,
      List.all_eq_true.2 fun d mem => mem_nameChars.1 (all d mem)⟩

/-- What is dropped from the front holds no suffix that begins as it should. -/
theorem longestSuffix_dropWhile {starts cs : List Char} {p : Char → Bool}
    (dropped : ∀ c, p c = true ↔ c ∉ starts) (some : ∃ c ∈ cs, c ∈ starts) :
    LongestSuffix starts cs (cs.dropWhile p) := by
  have filled : cs.dropWhile p ≠ [] := by
    obtain ⟨c, mem, start⟩ := some
    intro empty
    exact (dropped c).1 (List.dropWhile_eq_nil_iff.1 empty c mem) start
  refine ⟨List.dropWhile_suffix p, ?_, fun other suffix begins => ?_⟩
  · refine ⟨_, List.head?_eq_some_head filled, ?_⟩
    have stays := List.head_dropWhile_not p filled
    by_contra foreign
    rw [(dropped _).2 foreign] at stays
    cases stays
  rcases List.suffix_or_suffix_of_suffix suffix (List.dropWhile_suffix p) with inside | ⟨more, rfl⟩
  · exact inside.length_le
  obtain ⟨front, whole⟩ := suffix
  cases more with
  | nil => exact le_refl _
  | cons c more =>
    -- The character in front of the longer suffix is one of those that are dropped.
    have split : front ++ c :: more ++ cs.dropWhile p = cs.takeWhile p ++ cs.dropWhile p := by
      rw [List.takeWhile_append_dropWhile, List.append_assoc]
      exact whole
    have mem : c ∈ cs.takeWhile p :=
      List.append_cancel_right split ▸ List.mem_append_right _ List.mem_cons_self
    obtain ⟨d, first, start⟩ := begins
    cases first
    exact absurd start ((dropped c).1 (List.mem_takeWhile_imp mem))

theorem legalPart_eq (title : String) : legalPart title = title.toList.filter continuesName := by
  refine List.filter_congr fun c _ => ?_
  rw [Bool.eq_iff_iff, List.contains_iff_mem, mem_nameChars]

/-- A character that may begin a name is legal, so it is not lost with the illegal ones. -/
theorem exists_mem_legalPart {title : String} :
    (∃ c ∈ legalPart title, c ∈ nameStarts) ↔ ∃ c ∈ title.toList, c ∈ nameStarts := by
  rw [legalPart_eq]
  constructor
  · rintro ⟨c, mem, start⟩
    exact ⟨c, (List.mem_filter.1 mem).1, start⟩
  · rintro ⟨c, mem, start⟩
    have legal := continuesName_of_startsName (mem_nameStarts.1 start)
    exact ⟨c, List.mem_filter.2 ⟨mem, legal⟩, start⟩

theorem dropped_iff (c : Char) : (!startsName c) = true ↔ c ∉ nameStarts := by
  rw [mem_nameStarts, Bool.not_eq_true', Bool.not_eq_true]

/-- If there is a character to begin with, the name is what is left behind the first such one. -/
theorem toList_contractName {title : String} (some : ∃ c ∈ title.toList, c ∈ nameStarts) :
    (contractName title).toList = (legalPart title).dropWhile (!startsName ·) := by
  obtain ⟨c, mem, start⟩ := exists_mem_legalPart.2 some
  rw [contractName, ← legalPart_eq]
  split
  · rename_i empty
    exact absurd start ((dropped_iff c).1 (List.dropWhile_eq_nil_iff.1 empty c mem))
  · exact String.toList_ofList

/-- Without one, nothing is left and the fallback is taken. -/
theorem contractName_eq_unnamed {title : String} (none : ¬ ∃ c ∈ title.toList, c ∈ nameStarts) :
    contractName title = unnamed := by
  have empty : (legalPart title).dropWhile (!startsName ·) = [] := by
    refine List.dropWhile_eq_nil_iff.2 fun c mem => (dropped_iff c).2 fun start => ?_
    exact none (exists_mem_legalPart.1 ⟨c, mem, start⟩)
  rw [contractName, ← legalPart_eq, empty]

theorem isName_contractName (title : String) : isName (contractName title) = true := by
  by_cases some : ∃ c ∈ title.toList, c ∈ nameStarts
  · have longest := longestSuffix_dropWhile dropped_iff (exists_mem_legalPart.2 some)
    rw [← toList_contractName some] at longest
    obtain ⟨c, first, start⟩ := longest.begins
    obtain ⟨cs, chars⟩ := List.head?_eq_some_iff.1 first
    have legal : ∀ d ∈ cs, continuesName d = true := by
      intro d mem
      have kept := longest.suffix.subset (chars ▸ List.mem_cons_of_mem c mem)
      rw [legalPart_eq] at kept
      exact (List.mem_filter.1 kept).2
    rw [isName, chars]
    exact Bool.and_eq_true_iff.2 ⟨mem_nameStarts.1 start, List.all_eq_true.2 legal⟩
  · rw [contractName_eq_unnamed some]
    decide

theorem contractName_of_isName {title : String} (name : isName title = true) :
    contractName title = title := by
  obtain ⟨c, cs, chars, starts, rest⟩ := exists_of_isName name
  have some : ∃ c ∈ title.toList, c ∈ nameStarts :=
    ⟨c, chars ▸ List.mem_cons_self, mem_nameStarts.2 starts⟩
  have whole : legalPart title = title.toList := by
    rw [legalPart_eq]
    exact List.filter_eq_self.2 (List.all_eq_true.1 (all_of_isName name))
  rw [← String.toList_inj, toList_contractName some, whole, chars]
  exact List.dropWhile_cons_of_neg (by simp [starts])

/-- Every title gives a name that is legal, and a name is what the usual expression says. If the
title has a character that may begin a name, its own name is the longest suffix of its legal
characters that begins with one, and otherwise it is `Contract`. So a title that is a name is kept,
and a name is not changed again. -/
theorem contractName_keeps_longest (title : String) :
    isName (contractName title) = true ∧
    (∀ s, isName s = true ↔ s.toList ∈ namePattern.matches') ∧
    ((∃ c ∈ title.toList, c ∈ nameStarts) →
      LongestSuffix nameStarts (legalPart title) (contractName title).toList) ∧
    ((¬ ∃ c ∈ title.toList, c ∈ nameStarts) → contractName title = "Contract") ∧
    (isName title = true → contractName title = title) ∧
    contractName (contractName title) = contractName title := by
  refine ⟨isName_contractName title, fun s => isName_iff, fun some => ?_, contractName_eq_unnamed,
    contractName_of_isName, contractName_of_isName (isName_contractName title)⟩
  rw [toList_contractName some]
  exact longestSuffix_dropWhile dropped_iff (exists_mem_legalPart.2 some)

theorem contractName_sampleTitle :
    contractName "1 é2Tokén #3" = "Tokn3" ∧
      LongestSuffix nameStarts (legalPart "1 é2Tokén #3") (contractName "1 é2Tokén #3").toList :=
  ⟨by decide, (contractName_keeps_longest "1 é2Tokén #3").2.2.1 ⟨'T', by decide, by decide⟩⟩

end Mintage.Text
