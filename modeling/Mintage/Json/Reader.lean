/-! Readers of JSON text. Of several faults the first from the left is the one that is named. -/
namespace Mintage.Json

/-- A text is no JSON, or it ends too early, or it is JSON of another shape than the one wanted. -/
inductive Fault where
  | malformed
  | unfinished
  | mismatched
  deriving DecidableEq, Repr

/-- Reads a value at the start of a text, and returns it with the rest. -/
abbrev Reader (α : Type) := List Char → Except Fault (α × List Char)

def isSpace (c : Char) : Bool := c == ' ' || c == '\n' || c == '\t' || c == '\r'

def dropSpace (cs : List Char) : List Char := cs.dropWhile isSpace

/-- Reads the given letters. -/
def letters : List Char → List Char → Except Fault (List Char)
  | [], cs => .ok cs
  | _ :: _, [] => .error .unfinished
  | l :: ls, c :: cs => if l = c then letters ls cs else .error .malformed

@[simp] theorem letters_append (ls rest : List Char) : letters ls (ls ++ rest) = .ok rest := by
  induction ls with
  | nil => rfl
  | cons l ls ih => simp [letters, ih]

/-- What comes next between brackets. -/
inductive Step where
  | close (rest : List Char)
  | item (rest : List Char)

/-- The next item of a list, which stands behind a comma unless it is the first. -/
def nextItem (first : Bool) (cs : List Char) : Except Fault Step :=
  match dropSpace cs with
  | [] => .error .unfinished
  | ']' :: rest => .ok (.close rest)
  | ',' :: rest =>
    if first then .error .malformed
    else
      match dropSpace rest with
      | [] => .error .unfinished
      | ']' :: _ => .error .malformed
      | rest => .ok (.item rest)
  | rest => if first then .ok (.item rest) else .error .malformed

/-- The next key of an object; the rest begins behind its opening quote. -/
def nextMember (first : Bool) (cs : List Char) : Except Fault Step :=
  match dropSpace cs with
  | [] => .error .unfinished
  | '}' :: rest => .ok (.close rest)
  | '"' :: rest => if first then .ok (.item rest) else .error .malformed
  | ',' :: rest =>
    if first then .error .malformed
    else
      match dropSpace rest with
      | [] => .error .unfinished
      | '"' :: rest => .ok (.item rest)
      | _ => .error .malformed
  | _ => .error .malformed

def colon (cs : List Char) : Except Fault (List Char) :=
  match dropSpace cs with
  | [] => .error .unfinished
  | ':' :: rest => .ok rest
  | _ => .error .malformed

end Mintage.Json
