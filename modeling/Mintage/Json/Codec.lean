import Mintage.Json.Skip

/-! Ways to write and read values of a type. -/
namespace Mintage.Json

structure Codec (α : Type) where
  write : α → List Char
  read : Reader α

namespace Codec

def text : Codec String where
  write := writeString
  read cs :=
    match dropSpace cs with
    | '"' :: rest => string rest
    | rest => .error (refuse rest)

def flag : Codec Bool where
  write b := (if b then "true" else "false").toList
  read cs :=
    match dropSpace cs with
    | 't' :: rest => do .ok (true, ← letters ['r', 'u', 'e'] rest)
    | 'f' :: rest => do .ok (false, ← letters ['a', 'l', 's', 'e'] rest)
    | rest => .error (refuse rest)

/-- A number up to a limit, written with digits alone. -/
def readNat (limit : Nat) : Reader Nat := fun cs =>
  match dropSpace cs with
  | [] => .error .unfinished
  | c :: rest =>
    if c = '-' ∨ c.isDigit then do
      let (numeral, rest) ← Numeral.readKept (c :: rest)
      match numeral.natural? with
      | some n => if n ≤ limit then .ok (n, rest) else .error .mismatched
      | none => .error .mismatched
    else .error (refuse (c :: rest))

def word32 : Codec UInt32 where
  write n := (toString n.toNat).toList
  read cs := do
    let (n, rest) ← readNat (UInt32.size - 1) cs
    .ok (.ofNat n, rest)

def word64 : Codec UInt64 where
  write n := (toString n.toNat).toList
  read cs := do
    let (n, rest) ← readNat (UInt64.size - 1) cs
    .ok (.ofNat n, rest)

/-- A value that may be `null`. -/
def optional {α : Type} (codec : Codec α) : Codec (Option α) where
  write
    | none => "null".toList
    | some a => codec.write a
  read cs :=
    match dropSpace cs with
    | 'n' :: rest => do .ok (none, ← letters ['u', 'l', 'l'] rest)
    | rest => do
      let (a, rest) ← codec.read rest
      .ok (some a, rest)

/-- Texts with commas between them. -/
def commas (texts : List (List Char)) : List Char := [','].intercalate texts

/-- Reads the items of a list; there are fewer of them than characters in `clock`. -/
def readItems {α : Type} (read : Reader α) : List Char → Bool → Reader (List α)
  | [], _, _ => .error .unfinished
  | _ :: clock, first, cs => do
    match ← nextItem first cs with
    | .close rest => .ok ([], rest)
    | .item rest =>
      let (a, rest) ← read rest
      let (more, rest) ← readItems read clock false rest
      .ok (a :: more, rest)

def list {α : Type} (codec : Codec α) : Codec (List α) where
  write items := '[' :: (commas (items.map codec.write) ++ [']'])
  read cs :=
    match dropSpace cs with
    | '[' :: rest => readItems codec.read ('[' :: rest) true rest
    | rest => .error (refuse rest)

/-- Reads the members of an object; `member` is given each key and the text behind it, and there
are fewer of them than characters in `clock`. -/
def readMembers {σ : Type} (member : σ → String → Reader σ) : List Char → Bool → σ → Reader σ
  | [], _, _, _ => .error .unfinished
  | _ :: clock, first, state, cs => do
    match ← nextMember first cs with
    | .close rest => .ok (state, rest)
    | .item rest =>
      let (key, rest) ← string rest
      let (state, rest) ← member state key rest
      readMembers member clock false state rest

def writeMember (name : String) (value : List Char) : List Char :=
  writeString name ++ ':' :: value

def object (members : List (List Char)) : List Char := '{' :: (commas members ++ ['}'])

/-- One of several values, each with its name. It may also be read as an object whose only key is
the name, with the value `null`. -/
def choice {α : Type} (name : α → String) (ofName? : String → Option α) : Codec α where
  write a := writeString (name a)
  read cs :=
    match dropSpace cs with
    | [] => .error .unfinished
    | '"' :: rest => do
      let (key, rest) ← string rest
      match ofName? key with
      | some a => .ok (a, rest)
      | none => .error .mismatched
    | '{' :: rest => do
      let (key, rest) ← text.read rest
      match ofName? key with
      | none => .error .mismatched
      | some a =>
        match dropSpace (← colon rest) with
        | 'n' :: rest =>
          match dropSpace (← letters ['u', 'l', 'l'] rest) with
          | [] => .error .unfinished
          | '}' :: rest => .ok (a, rest)
          | _ => .error .malformed
        | rest => .error (refuse rest)
    | _ => .error .malformed

/-- Reads a whole text. -/
def parse {α : Type} (codec : Codec α) (s : String) : Except Fault α := do
  let (a, rest) ← codec.read s.toList
  if (dropSpace rest).isEmpty then .ok a else .error .malformed

def print {α : Type} (codec : Codec α) (a : α) : String := String.ofList (codec.write a)

end Codec

end Mintage.Json
