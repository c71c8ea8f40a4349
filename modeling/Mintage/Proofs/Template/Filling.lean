import Mintage.Proofs.Template
import Mintage.Proofs.Template.Lexing

/-! The address of a token is its template filled for display, with values for the two slots that
are known; a template with any other slot has no addresses, though it can be displayed. -/
namespace Mintage.Template

/-- The names between the braces of a text, from the left. A last name may be open, and a name may
be empty. -/
inductive Slots : List Char → List String → Prop
  | nil : Slots [] []
  | char {c cs names} (plain : c ≠ '{') (later : Slots cs names) : Slots (c :: cs) names
  | closed {name cs names} (free : '}' ∉ name) (later : Slots cs names) :
    Slots ('{' :: (name ++ '}' :: cs)) (String.ofList name :: names)
  | opened {name} (free : '}' ∉ name) : Slots ('{' :: name) [String.ofList name]

/-- A name that an address has no value for; the empty one stands for nothing. -/
def Foreign (name : String) : Prop := name ≠ "" ∧ name ≠ tokenIdSlot ∧ name ≠ parametersSlot

instance : DecidablePred Foreign := fun name =>
  inferInstanceAs (Decidable (name ≠ "" ∧ name ≠ tokenIdSlot ∧ name ≠ parametersSlot))

/-- Fills a template for display from a table; a slot without an entry is left empty. -/
def display (template : String) (table : String → Option String) : Except Error String :=
  populate template fun name => (table name).getD ""

section

variable {cs run : List Char} {names : List String} {tokens : List Token}

theorem Slots.text {text : List Char} (free : '{' ∉ text) (later : Slots cs names) :
    Slots (text ++ cs) names := by
  induction text with
  | nil => exact later
  | cons c text ih =>
    exact .char (fun same => free (same ▸ List.mem_cons_self))
      (ih fun mem => free (List.mem_cons_of_mem _ mem))

/-- Every text has its slots, perhaps none: they are those of its parts in the grammar. -/
theorem exists_slots (cs : List Char) : ∃ names, Slots cs names := by
  obtain ⟨readings, pieced⟩ := exists_pieced cs
  induction pieced with
  | nil => exact ⟨[], .nil⟩
  | content _ free _ _ ih =>
    obtain ⟨names, later⟩ := ih
    exact ⟨names, later.text free⟩
  | closed free _ ih =>
    obtain ⟨names, later⟩ := ih
    exact ⟨_, .closed free later⟩
  | opened free => exact ⟨_, .opened free⟩

theorem findSome?_text (run : List Char) :
    (Place.text.tokens run).findSome? Token.stranger? = none := by
  by_cases empty : run = [] <;> simp [Place.tokens, empty, Token.stranger?]

theorem stranger?_slot (name : String) :
    Token.stranger? (.slot name) =
      if name ≠ tokenIdSlot ∧ name ≠ parametersSlot then some name else none := by
  simp only [Token.stranger?, ne_eq, ← not_or, ite_not]

theorem findSome?_slot (name : List Char) :
    (slotTokens name).findSome? Token.stranger? = [String.ofList name].find? (Foreign ·) := by
  by_cases empty : name = []
  · simp [slotTokens, Foreign, empty]
  · rw [slotTokens, if_neg (by simpa using empty), List.findSome?_singleton, stranger?_slot]
    simp [List.find?_singleton, Foreign, empty]

/-- The first token that is not known is the first foreign name. -/
theorem Slots.findSome?_eq (slots : Slots cs names) (scanned : scan .text run cs = some tokens) :
    tokens.findSome? Token.stranger? = names.find? (Foreign ·) := by
  induction slots generalizing run tokens with
  | nil =>
    cases scanned
    exact findSome?_text run
  | char plain _ ih =>
    rw [scan, if_neg plain] at scanned
    split at scanned
    · cases scanned
    · exact ih scanned
  | closed free _ ih =>
    rw [scan_closed free] at scanned
    obtain ⟨rest, later, rfl⟩ := Option.map_eq_some_iff.1 scanned
    rw [List.append_assoc, List.findSome?_append, findSome?_text, List.findSome?_append,
      findSome?_slot, ih later, ← List.find?_append]
    rfl
  | opened free =>
    rw [scan_opened free] at scanned
    cases scanned
    rw [List.findSome?_append, findSome?_text, findSome?_slot]
    rfl

variable {template : String}

/-- The first stranger is the one that is reported. -/
theorem parseUri_of_some (parsed : parse template = .ok tokens) {name : String}
    (first : tokens.findSome? Token.stranger? = some name) :
    parseUri template = .error (.unrecognized name) := by
  simp only [parseUri, parsed, bind, Except.bind, first]

theorem parseUri_of_none (parsed : parse template = .ok tokens)
    (none : tokens.findSome? Token.stranger? = none) : parseUri template = .ok tokens := by
  simp only [parseUri, parsed, bind, Except.bind, none]

/-- Display needs no known slots, only a template that can be read. -/
theorem display_of_parse (parsed : parse template = .ok tokens) (table : String → Option String) :
    display template table = .ok (fillAll (fun name => (table name).getD "") tokens) := by
  rw [display, populate, parsed]
  rfl

theorem uri_of_refused {e : Error} (refused : parse template = .error e) (tokenId : Nat)
    (names : List String) : uri template tokenId names = .error e := by
  rw [uri, parseUri, refused]
  rfl

theorem display_of_refused {e : Error} (refused : parse template = .error e)
    (table : String → Option String) : display template table = .error e := by
  rw [display, populate, refused]
  rfl

/-- Slots are filled alike from values that are the same for their names. -/
theorem fillAll_congr {value other : String → String}
    (same : ∀ name, .slot name ∈ tokens → value name = other name) :
    fillAll value tokens = fillAll other tokens := by
  unfold fillAll
  congr 1
  refine List.map_congr_left fun token mem => ?_
  cases token with
  | text s => rfl
  | slot name => exact same name mem

end

/-- Every text has its names. Where the braces do not match, neither an address nor a display is
made, whatever the names are. Otherwise the first foreign name is the error of an address, while a
display is made from every table; and without a foreign name the address is the display from every
table that has the number of the token and the query of its parameters. -/
theorem uri_displays (template : String) (tokenId : Nat) (parameters : List Parameter) :
    (∃ names, Slots template.toList names) ∧
    ∀ names, Slots template.toList names →
      (∀ e, parse template = .error e →
        uri template tokenId (parameters.map (·.name)) = .error .unmatchedBrackets ∧
        ∀ table, display template table = .error .unmatchedBrackets) ∧
      (∀ tokens, parse template = .ok tokens →
        (∀ name, names.find? (Foreign ·) = some name →
          uri template tokenId (parameters.map (·.name)) = .error (.unrecognized name) ∧
          ∀ table, ∃ text, display template table = .ok text) ∧
        (names.find? (Foreign ·) = none → ∀ table,
          table tokenIdSlot = some (toString tokenId) →
          table parametersSlot = some (sampleQuery (parameters.map (·.name))) →
          ∃ text, uri template tokenId (parameters.map (·.name)) = .ok text ∧
            display template table = .ok text)) := by
  refine ⟨exists_slots _, fun names slots => ⟨fun e refused => ?_, fun tokens parsed => ?_⟩⟩
  · obtain ⟨rfl, -⟩ := parse_eq_error_iff.1 refused
    exact ⟨uri_of_refused refused tokenId _, fun table => display_of_refused refused table⟩
  · have stranger := slots.findSome?_eq (parse_eq_ok_iff.1 parsed)
    refine ⟨fun name foreign => ⟨?_, fun table => ⟨_, display_of_parse parsed table⟩⟩,
      fun known table number query => ?_⟩
    · unfold uri
      rw [parseUri_of_some parsed (stranger.trans foreign)]
      rfl
    · have accepted := parseUri_of_none parsed (stranger.trans known)
      refine ⟨_, uri_of_parseUri accepted tokenId _, ?_⟩
      rw [display_of_parse parsed]
      congr 1
      refine fillAll_congr fun name mem => ?_
      obtain rfl | rfl := slot_of_parseUri accepted mem
      · rw [number]
        rfl
      · rw [query]
        rfl

theorem uri_sampleSlots :
    uri "\x7bfoo\x7d\x7d" 7 [] = .error .unmatchedBrackets ∧
      uri "\x7bfoo\x7d\x7bbar" 7 [] = .error (.unrecognized "foo") ∧
      (∃ text, display "\x7bfoo\x7d\x7bbar" (fun _ => none) = .ok text) ∧
      ∃ text, uri "x\x7b\x7d\x7btokenId\x7d\x7bparameters" 7 ["a"] = .ok text ∧
        display "x\x7b\x7d\x7btokenId\x7d\x7bparameters" (fun name =>
          if name = tokenIdSlot then some "7" else some "?a=0") = .ok text := by
  have stray : parse "\x7bfoo\x7d\x7d" = .error .unmatchedBrackets := by decide +kernel
  have foreign : Slots "\x7bfoo\x7d\x7bbar".toList ["foo", "bar"] :=
    @Slots.closed ['f', 'o', 'o'] _ _ (by decide) (@Slots.opened ['b', 'a', 'r'] (by decide))
  have known : Slots "x\x7b\x7d\x7btokenId\x7d\x7bparameters".toList
      ["", tokenIdSlot, parametersSlot] :=
    .char (by decide) (@Slots.closed [] _ _ (by decide)
      (@Slots.closed tokenIdSlot.toList _ _ (by decide)
        (@Slots.opened parametersSlot.toList (by decide))))
  obtain ⟨⟨names, slots⟩, refused⟩ := uri_displays "\x7bfoo\x7d\x7d" 7 []
  obtain ⟨-, unrecognized⟩ := (uri_displays "\x7bfoo\x7d\x7bbar" 7 []).2 _ foreign
  obtain ⟨uri_eq, display_eq⟩ :=
    (unrecognized [.slot "foo", .slot "bar"] (by decide +kernel)).1 "foo" (by decide)
  obtain ⟨-, filled⟩ := (uri_displays "x\x7b\x7d\x7btokenId\x7d\x7bparameters" 7
    [⟨"a", .string⟩]).2 _ known
  have same := (filled [.text "x", .slot "tokenId", .slot "parameters"] (by decide +kernel)).2
    (by decide)
  exact ⟨((refused names slots).1 _ stray).1, uri_eq, display_eq _,
    same _ (by decide) (by decide)⟩

example : uri "x\x7b\x7d\x7btokenId\x7d\x7bparameters" 7 ["a"] = .ok "x7?a=0" := by
  decide +kernel

end Mintage.Template
