import Mintage.Text.Quoted

/-! Literals as a reader finds them: a text in quotes that is one token and means a value. What is
written for a value is such a text. -/
namespace Mintage.Text

namespace Quoted

/-- What is passed behind the opening quote of a literal up to the closing one, and what follows.
The character behind a backslash is skipped. -/
def scan : List Char → Option (List Char × List Char)
  | [] => none
  | '"' :: rest => some ([], rest)
  | '\\' :: c :: rest => (scan rest).map fun s => ('\\' :: c :: s.1, s.2)
  | c :: rest => (scan rest).map fun s => (c :: s.1, s.2)

/-- The escapes of one character, with what they stand for. -/
def meanings : List (Char × Char) :=
  [('"', '"'), ('\x27', '\x27'), ('\\', '\\'), ('n', '\n'), ('r', '\r'), ('t', '\t')]

/-- The value of what stands between the quotes. Escapes by number are not read. -/
def unescape : List Char → Option (List Char)
  | [] => some []
  | ['\\'] => none
  | '\\' :: c :: rest =>
    match meanings.lookup c, unescape rest with
    | some meant, some value => some (meant :: value)
    | _, _ => none
  | c :: rest => (unescape rest).map (c :: ·)

theorem scan_cons {c : Char} (notQuote : c ≠ '"') (notSlash : c ≠ '\\') (rest : List Char) :
    scan (c :: rest) = (scan rest).map fun s => (c :: s.1, s.2) := by
  rw [scan.eq_def]
  split <;> simp_all

theorem unescape_cons {c : Char} (notSlash : c ≠ '\\') (rest : List Char) :
    unescape (c :: rest) = (unescape rest).map (c :: ·) := by
  rw [unescape.eq_def]
  split <;> simp_all

theorem unescape_escaped {c meant : Char} (known : meanings.lookup c = some meant)
    (rest : List Char) : unescape ('\\' :: c :: rest) = (unescape rest).map (meant :: ·) := by
  rw [unescape, known]
  cases unescape rest <;> rfl

/-- Nothing that is written for a value ends its literal. -/
theorem scan_encode (cs rest : List Char) :
    scan (encode cs ++ '"' :: rest) = some (encode cs, rest) := by
  induction cs with
  | nil => rfl
  | cons c cs ih =>
    rw [encode_cons, List.append_assoc]
    rcases escape_cases c with ⟨d, escaped⟩ | ⟨notQuote, notSlash, plain⟩
    · rw [escaped, List.cons_append, List.singleton_append, scan, ih]
      rfl
    · rw [plain, List.singleton_append, scan_cons notQuote notSlash, ih]
      rfl

/-- One character that is written means itself, whatever follows. -/
theorem unescape_escape (c : Char) (rest : List Char) :
    unescape (escape c ++ rest) = (unescape rest).map (c :: ·) := by
  unfold escape
  split
  · exact unescape_escaped rfl rest
  · exact unescape_escaped rfl rest
  · exact unescape_escaped rfl rest
  · rename_i notSlash _
    exact unescape_cons notSlash rest

theorem unescape_encode (cs : List Char) : unescape (encode cs) = some cs := by
  induction cs with
  | nil => rfl
  | cons c cs ih =>
    rw [encode_cons, unescape_escape, ih]
    rfl

/-- A carriage return is written as it is. -/
theorem mem_escape_return (c : Char) : '\r' ∈ escape c ↔ c = '\r' := by
  unfold escape
  split <;> simp [eq_comm]

end Quoted

/-- What stands between the first and the last character of a text. -/
def inside (text : String) : List Char := text.toList.tail.dropLast

/-- The text is one literal: it starts with a quote, a scanner behind this quote stops at the last
character of the text, whatever follows, and what it has passed means the value. -/
structure IsLiteral (text value : String) : Prop where
  opens : text.toList.head? = some '"'
  scanned : ∀ rest, Quoted.scan (text.toList.tail ++ rest) = some (inside text, rest)
  means : Quoted.unescape (inside text) = some value.toList

/-- No character of the text ends a line. -/
def OnOneLine (text : String) : Prop := ∀ c ∈ text.toList, c ≠ '\n' ∧ c ≠ '\r'

theorem inside_quoted (s : String) : inside (quoted s) = Quoted.encode s.toList := by
  simp [inside, quoted]

/-- What is written for a value is one literal that means it. -/
theorem isLiteral_quoted (s : String) : IsLiteral (quoted s) s where
  opens := by rw [quoted, String.toList_ofList, List.head?_cons]
  scanned := fun rest => by
    rw [inside_quoted, quoted, String.toList_ofList, List.tail_cons, List.append_assoc,
      List.singleton_append, Quoted.scan_encode]
  means := by rw [inside_quoted, Quoted.unescape_encode]

/-- A carriage return is not escaped. -/
theorem return_mem_quoted (s : String) : '\r' ∈ (quoted s).toList ↔ '\r' ∈ s.toList := by
  simp [quoted, Quoted.encode, Quoted.mem_escape_return]

end Mintage.Text
