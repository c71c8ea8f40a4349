import Mintage.Json.Reader

/-! Strings in JSON. -/
namespace Mintage.Json

/-- The letter behind the backslash, for the characters that have one. -/
def escapes : List (Char × Char) :=
  [('"', '"'), ('\\', '\\'), ('\x08', 'b'), ('\x0c', 'f'), ('\n', 'n'), ('\r', 'r'), ('\t', 't')]

def hexDigit (n : Nat) : Char := Nat.digitChar n

def hexValue? (c : Char) : Option Nat :=
  if c.isDigit then some (c.toNat - '0'.toNat)
  else if 'a' ≤ c ∧ c ≤ 'f' then some (c.toNat - 'a'.toNat + 10)
  else if 'A' ≤ c ∧ c ≤ 'F' then some (c.toNat - 'A'.toNat + 10)
  else none

/-- A character inside a string; control characters without a letter are written by their code. -/
def escape (c : Char) : List Char :=
  match escapes.lookup c with
  | some letter => ['\\', letter]
  | none =>
    if c.toNat < 0x20 then ['\\', 'u', '0', '0', hexDigit (c.toNat / 16), hexDigit (c.toNat % 16)]
    else [c]

def writeString (s : String) : List Char := '"' :: (s.toList.flatMap escape ++ ['"'])

/-- The characters that a letter behind the backslash stands for. -/
def unescapes : List (Char × Char) := ('/', '/') :: escapes.map fun e => (e.2, e.1)

/-- The number that four hexadecimal digits denote. A text that is too short for them has ended
too early. -/
def quad (cs : List Char) : Except Fault Nat :=
  let head := cs.take 4
  if (String.ofList head).utf8ByteSize < 4 then .error .unfinished
  else
    match head.mapM hexValue? with
    | none => .error .malformed
    | some digits => .ok (digits.foldl (fun n d => 16 * n + d) 0)

def isLeading (n : Nat) : Bool := 0xD800 ≤ n && n ≤ 0xDBFF

def isTrailing (n : Nat) : Bool := 0xDC00 ≤ n && n ≤ 0xDFFF

/-- The character of a leading and a trailing half. -/
def paired (high low : Nat) : Char :=
  Char.ofNat (0x10000 + (high - 0xD800) * 0x400 + (low - 0xDC00))

/-- A character at the start of a text, and how many characters it is written with. -/
abbrev Spelling := List Char → Except Fault (Char × Nat)

/-- A character by its code, which may come in two halves. -/
def coded : Spelling := fun cs => do
  let code ← quad cs
  if isTrailing code then .error .malformed
  else if isLeading code then
    let low ← quad (← letters ['\\', 'u'] (cs.drop 4))
    if isTrailing low then .ok (paired code low, 10) else .error .malformed
  else .ok (Char.ofNat code, 4)

/-- A code of which only the form matters. -/
def uncoded : Spelling := fun cs => do
  let _ ← quad cs
  .ok ('u', 4)

/-- The next character of a string, where `code` reads what follows `\u`. -/
def character (code : Spelling) : Spelling
  | [] => .error .unfinished
  | ['\\'] => .error .unfinished
  | '\\' :: letter :: cs =>
    if letter = 'u' then do
      let (c, used) ← code cs
      .ok (c, used + 2)
    else
      match unescapes.lookup letter with
      | some c => .ok (c, 2)
      | none => .error .malformed
  | c :: _ => if c.toNat < 0x20 then .error .malformed else .ok (c, 1)

/-- The characters up to the closing quote; the first `used` ones have been read before. -/
def characters (code : Spelling) : Nat → Reader (List Char)
  | _, [] => .error .unfinished
  | used + 1, _ :: cs => characters code used cs
  | 0, c :: cs =>
    if c = '"' then .ok ([], cs)
    else do
      let (value, used) ← character code (c :: cs)
      let (more, rest) ← characters code (used - 1) cs
      .ok (value :: more, rest)

/-- A string behind its opening quote. -/
def string : Reader String := fun cs => do
  let (value, rest) ← characters coded 0 cs
  .ok (String.ofList value, rest)

/-- A string whose value does not matter, behind its opening quote. -/
def skipString (cs : List Char) : Except Fault (List Char) := do
  let (_, rest) ← characters uncoded 0 cs
  .ok rest

end Mintage.Json
