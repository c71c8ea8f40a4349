import Mintage.Proofs.Json.Numeral
import Mintage.Proofs.Json.Text

/-! Codecs that read back what they write, whatever stands behind it. -/
namespace Mintage.Json

/-- What a value begins with: no space, and nothing that stands between values. -/
def Opens (cs : List Char) : Prop :=
  ∃ c more, cs = c :: more ∧ isSpace c = false ∧ c ≠ ',' ∧ c ≠ ']'

theorem opens_cons {c : Char} (plain : isSpace c = false ∧ c ≠ ',' ∧ c ≠ ']')
    (more : List Char) : Opens (c :: more) := ⟨c, more, rfl, plain⟩

theorem opens_toDigits (n : Nat) : Opens (Nat.toDigits 10 n) := by
  obtain ⟨d, ds, same, digit⟩ := exists_toDigits n
  rw [same]
  refine opens_cons ⟨isSpace_of_isDigit digit, ?_, ?_⟩ ds <;> rintro rfl <;>
    exact absurd digit (by decide)

/-- No value begins with a space, so none is lost in front of it. -/
theorem dropSpace_of_opens {cs : List Char} (opens : Opens cs) (rest : List Char) :
    dropSpace (cs ++ rest) = cs ++ rest := by
  obtain ⟨c, more, rfl, visible, -⟩ := opens
  simp [dropSpace, visible]

/-- What stands in front of an item. -/
def separator (first : Bool) : List Char := if first then [] else [',']

/-- Texts with a comma in front of each but the first. -/
def joined (first : Bool) : List (List Char) → List Char
  | [] => []
  | text :: texts => separator first ++ (text ++ joined false texts)

/-- The separator stands in front of each item but the first, which is how items are read. -/
theorem commas_eq_joined (texts : List (List Char)) :
    Codec.commas texts = joined true texts := by
  induction texts with
  | nil => rfl
  | cons text texts ih =>
    cases texts with
    | nil => simp [Codec.commas, joined, separator, List.intercalate]
    | cons next texts =>
      have split : Codec.commas (text :: next :: texts) =
          text ++ ',' :: Codec.commas (next :: texts) := by
        simp [Codec.commas, List.intercalate]
      rw [split, ih]
      rfl

/-- Each text takes a character or more, so that a clock as long as the text does not run out. -/
theorem length_le_joined (first : Bool) {texts : List (List Char)}
    (opens : ∀ text ∈ texts, Opens text) : texts.length ≤ (joined first texts).length := by
  induction texts generalizing first with
  | nil => exact Nat.zero_le _
  | cons text texts ih =>
    obtain ⟨c, more, same, -⟩ := opens text List.mem_cons_self
    have later := ih false fun text mem => opens text (List.mem_cons_of_mem _ mem)
    simp only [joined, same, List.length_append, List.length_cons]
    omega

theorem closes_joined (texts : List (List Char)) {closing : Char}
    (closes : closing = ']' ∨ closing = '}') (rest : List Char) :
    Closes (joined false texts ++ closing :: rest) := by
  cases texts with
  | nil => exact closes_cons (.inr closes) rest
  | cons text texts => exact closes_cons (.inl rfl) _

theorem nextItem_separator (first : Bool) {cs : List Char} (opens : Opens cs)
    (rest : List Char) :
    nextItem first (separator first ++ (cs ++ rest)) = .ok (.item (cs ++ rest)) := by
  have visible := dropSpace_of_opens opens rest
  obtain ⟨c, more, rfl, -, comma, bracket⟩ := opens
  rw [List.cons_append] at visible ⊢
  cases first with
  | true => simp [separator, nextItem, visible, comma, bracket]
  | false =>
    have behind (cs : List Char) : dropSpace (',' :: cs) = ',' :: cs := rfl
    simp [separator, nextItem, behind, visible, bracket]

theorem nextMember_separator (first : Bool) (cs : List Char) :
    nextMember first (separator first ++ '"' :: cs) = .ok (.item cs) := by
  cases first <;> rfl

theorem colon_cons (rest : List Char) : colon (':' :: rest) = .ok rest := rfl

namespace Codec

variable {α σ : Type}

/-- What is written is read back, whatever stands behind it. -/
structure Faithful (codec : Codec α) : Prop where
  opens : ∀ a, Opens (codec.write a)
  reads : ∀ a rest, Closes rest → codec.read (codec.write a ++ rest) = .ok (a, rest)

theorem text_faithful : text.Faithful where
  opens _ := opens_cons (by decide) _
  reads s rest _ := by
    have read := string_write s rest
    simp [text, writeString, dropSpace, isSpace, read]

theorem flag_faithful : flag.Faithful where
  opens b := by cases b <;> exact opens_cons (by decide) _
  reads b _ _ := by cases b <;> rfl

/-- No value is written like `null`. -/
def Present (codec : Codec α) : Prop := ∀ a, (codec.write a).head? ≠ some 'n'

theorem text_present : text.Present := fun _ => nofun

/-- Values are written as numbers up to a limit, and read from them. -/
structure Numeric (codec : Codec α) (limit : Nat) (toNat : α → Nat) : Prop where
  small : limit < UInt64.size
  le : ∀ a, toNat a ≤ limit
  write : ∀ a, codec.write a = Nat.toDigits 10 (toNat a)
  read : ∀ a cs rest, readNat limit cs = .ok (toNat a, rest) → codec.read cs = .ok (a, rest)

theorem word32_numeric : word32.Numeric (UInt32.size - 1) UInt32.toNat where
  small := by decide
  le n := Nat.le_sub_one_of_lt n.toNat_lt_size
  write n := by simp [word32]
  read n cs rest found := by simp only [word32, found, bind, Except.bind, UInt32.ofNat_toNat]

theorem word64_numeric : word64.Numeric (UInt64.size - 1) UInt64.toNat where
  small := by decide
  le n := Nat.le_sub_one_of_lt n.toNat_lt_size
  write n := by simp [word64]
  read n cs rest found := by simp only [word64, found, bind, Except.bind, UInt64.ofNat_toNat]

namespace Numeric

variable {codec : Codec α} {limit : Nat} {toNat : α → Nat}

/-- Numbers of every width are read back alike. -/
theorem faithful (numeric : codec.Numeric limit toNat) : codec.Faithful where
  opens a := numeric.write a ▸ opens_toDigits (toNat a)
  reads a rest closes := by
    have found := readNat_toDigits (numeric.le a) numeric.small closes
    rw [numeric.write]
    exact numeric.read a _ rest found

theorem present (numeric : codec.Numeric limit toNat) : codec.Present := by
  intro a
  obtain ⟨d, ds, same, digit⟩ := exists_toDigits (toNat a)
  rw [numeric.write, same]
  rintro ⟨⟩
  exact absurd digit (by decide)

end Numeric

/-- A value of a fixed list is read back from its name, if no two have the same. -/
theorem choice_faithful {name : α → String} {ofName? : String → Option α}
    (known : ∀ a, ofName? (name a) = some a) : (choice name ofName?).Faithful where
  opens _ := opens_cons (by decide) _
  reads a rest _ := by
    have read := string_write (name a) rest
    simp [choice, writeString, dropSpace, isSpace, read, known, bind, Except.bind]

/-- What may be missing is read back if nothing else is written like `null`. -/
theorem Faithful.optional {codec : Codec α} (faithful : codec.Faithful)
    (present : codec.Present) : codec.optional.Faithful where
  opens
    | none => opens_cons (by decide) _
    | some a => faithful.opens a
  reads
    | none, _, _ => rfl
    | some a, rest, closes => by
      have read := faithful.reads a rest closes
      have visible := dropSpace_of_opens (faithful.opens a) rest
      have other := present a
      obtain ⟨c, more, same, -⟩ := faithful.opens a
      simp only [Codec.optional]
      rw [same] at read visible other ⊢
      rw [visible]
      split
      · rename_i heq
        cases heq
        exact absurd rfl other
      · rw [read]
        rfl

/-- Items are read one by one; the clock is longer than their number. -/
theorem readItems_joined {codec : Codec α} (faithful : codec.Faithful) (clock : List Char)
    (first : Bool) (items : List α) (enough : items.length < clock.length) (rest : List Char) :
    readItems codec.read clock first (joined first (items.map codec.write) ++ ']' :: rest) =
      .ok (items, rest) := by
  -- each item takes a tick of the clock, and one is left for the closing bracket
  induction items generalizing clock first with
  | nil =>
    cases clock with
    | nil => exact absurd enough (Nat.not_lt_zero _)
    | cons tick clock => rfl
  | cons a items ih =>
    cases clock with
    | nil => exact absurd enough (Nat.not_lt_zero _)
    | cons tick clock =>
      have later := ih clock false (Nat.lt_of_succ_lt_succ enough)
      have read := faithful.reads a _ (closes_joined (items.map codec.write) (.inl rfl) rest)
      have next := nextItem_separator first (faithful.opens a)
        (joined false (items.map codec.write) ++ ']' :: rest)
      simp [readItems, joined, next, read, later, bind, Except.bind]

/-- A list is read back if each item is. -/
theorem Faithful.list {codec : Codec α} (faithful : codec.Faithful) : codec.list.Faithful where
  opens _ := opens_cons (by decide) _
  reads items rest _ := by
    have enough : (items.map codec.write).length ≤ (joined true (items.map codec.write)).length :=
      length_le_joined true fun text mem => by
        obtain ⟨a, -, rfl⟩ := List.mem_map.1 mem
        exact faithful.opens a
    simp only [Codec.list, List.cons_append, List.append_assoc, List.nil_append, commas_eq_joined]
    refine readItems_joined faithful _ true items ?_ rest
    simp only [List.length_map, List.length_cons, List.length_append] at enough ⊢
    omega

/-- Members are read one after the other, and lead from one state to another. -/
inductive Reads (member : σ → String → Reader σ) : σ → List (String × List Char) → σ → Prop
  | nil (state : σ) : Reads member state [] state
  | cons {state next final : σ} {key : String} {value : List Char}
    {members : List (String × List Char)}
    (first : ∀ rest, Closes rest → member state key (':' :: (value ++ rest)) = .ok (next, rest))
    (later : Reads member next members final) : Reads member state ((key, value) :: members) final

def writeMembers (members : List (String × List Char)) : List (List Char) :=
  members.map fun entry => writeMember entry.1 entry.2

/-- Members are read one by one, each in the state that those before it have left. -/
theorem readMembers_joined {member : σ → String → Reader σ} {state final : σ}
    {members : List (String × List Char)} (reads : Reads member state members final)
    (clock : List Char) (first : Bool) (enough : members.length < clock.length)
    (rest : List Char) :
    readMembers member clock first state (joined first (writeMembers members) ++ '}' :: rest) =
      .ok (final, rest) := by
  induction reads generalizing clock first with
  | nil state =>
    cases clock with
    | nil => exact absurd enough (Nat.not_lt_zero _)
    | cons tick clock => rfl
  | @cons state next final key value members head later ih =>
    cases clock with
    | nil => exact absurd enough (Nat.not_lt_zero _)
    | cons tick clock =>
      have tail := ih clock false (Nat.lt_of_succ_lt_succ enough)
      have read := head _ (closes_joined (writeMembers members) (.inr rfl) rest)
      have text : joined first (writeMembers ((key, value) :: members)) ++ '}' :: rest =
          separator first ++ '"' :: (key.toList.flatMap escape ++ '"' :: ':' ::
            (value ++ (joined false (writeMembers members) ++ '}' :: rest))) := by
        simp [writeMembers, joined, writeMember, writeString]
      rw [text, readMembers, nextMember_separator]
      simp only [string_write, read, tail, bind, Except.bind]

/-- An object is an opening brace and members that are read in the order in which they stand. -/
theorem readMembers_object {member : σ → String → Reader σ} {state final : σ}
    {members : List (String × List Char)} (reads : Reads member state members final)
    (rest : List Char) :
    ∃ body, dropSpace (object (writeMembers members) ++ rest) = '{' :: body ∧
      readMembers member ('{' :: body) true state body = .ok (final, rest) := by
  have enough : (writeMembers members).length ≤ (joined true (writeMembers members)).length :=
    length_le_joined true fun text mem => by
      obtain ⟨entry, -, rfl⟩ := List.mem_map.1 mem
      exact opens_cons (by decide) _
  refine ⟨joined true (writeMembers members) ++ '}' :: rest, ?_, ?_⟩
  · simp [object, commas_eq_joined, dropSpace, isSpace]
  · refine readMembers_joined reads _ true ?_ rest
    simp only [List.length_cons, List.length_append, writeMembers, List.length_map] at enough ⊢
    omega

end Codec

end Mintage.Json
