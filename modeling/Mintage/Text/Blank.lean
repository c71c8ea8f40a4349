/-! Blank characters, and the trimming and cutting of text at them. -/
namespace Mintage.Text

/-- The code points with the property `White_Space`, as ranges that include both ends. -/
def blankRanges : List (Nat × Nat) :=
  [(0x09, 0x0D), (0x20, 0x20), (0x85, 0x85), (0xA0, 0xA0), (0x1680, 0x1680), (0x2000, 0x200A),
    (0x2028, 0x2029), (0x202F, 0x202F), (0x205F, 0x205F), (0x3000, 0x3000)]

def isBlank (c : Char) : Bool :=
  blankRanges.any fun range => range.1 ≤ c.toNat && c.toNat ≤ range.2

/-- The pieces between separators, one more than there are separators. -/
def pieces (separates : Char → Bool) : List Char → List (List Char)
  | [] => [[]]
  | c :: cs =>
    if separates c then [] :: pieces separates cs
    else (pieces separates cs).modifyHead (c :: ·)

@[simp] theorem pieces_nil (separates : Char → Bool) : pieces separates [] = [[]] := rfl

theorem pieces_ne_nil (separates : Char → Bool) (cs : List Char) :
    pieces separates cs ≠ [] := by
  induction cs with
  | nil => simp
  | cons c cs ih => by_cases h : separates c <;> simp [pieces, h, ih]

def dropBlanksRight (cs : List Char) : List Char := (cs.reverse.dropWhile isBlank).reverse

/-- The text without the blanks at its end. -/
def trimRight (s : String) : String := String.ofList (dropBlanksRight s.toList)

/-- The text without the blanks at its two ends. -/
def trim (s : String) : String := String.ofList (dropBlanksRight (s.toList.dropWhile isBlank))

/-- The runs of characters between blanks. -/
def words (s : String) : List String :=
  ((pieces isBlank s.toList).filter (!·.isEmpty)).map String.ofList

/-- The words with one space between neighbours. -/
def spaced (ws : List String) : String := " ".intercalate ws

def lines (s : String) : List String := (pieces (· == '\n') s.toList).map String.ofList

/-- The trimmed text, where it holds more than blanks. -/
def content? (s : Option String) : Option String :=
  (s.map trim).filter (!·.isEmpty)

example : (blankRanges.map fun range => range.2 + 1 - range.1).sum = 25 := by decide

end Mintage.Text
