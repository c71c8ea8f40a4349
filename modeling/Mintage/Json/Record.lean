import Mintage.Json.Codec

/-! Records: objects with known keys, or lists of the values in the order of the keys. -/
namespace Mintage.Json

/-- A field of a record; reading its value gives the change that it makes to the record. -/
structure RecordField (σ : Type) where
  name : String
  required : Bool
  write : σ → List Char
  read : Reader (σ → σ)

namespace RecordField

variable {σ α : Type}

def ofCodec (required : Bool) (name : String) (codec : Codec α) (get : σ → α)
    (set : α → σ → σ) : RecordField σ where
  name
  required
  write s := codec.write (get s)
  read cs := do
    let (a, rest) ← codec.read cs
    .ok (set a, rest)

/-- A field that has to be there. -/
def must (name : String) (codec : Codec α) (get : σ → α) (set : α → σ → σ) : RecordField σ :=
  ofCodec true name codec get set

/-- A field that keeps its first value if it is not there. -/
def may (name : String) (codec : Codec α) (get : σ → α) (set : α → σ → σ) : RecordField σ :=
  ofCodec false name codec get set

/-- A record in the making and the keys that were read. -/
structure Draft (σ : Type) where
  record : σ
  keys : List String

/-- Reads the value of a key. A known key may occur once, the value of an unknown key is passed
over. -/
def readMember (fields : List (RecordField σ)) (draft : Draft σ) (key : String) :
    Reader (Draft σ) :=
  fun cs =>
    match fields.find? (·.name == key) with
    | none => do .ok (draft, ← skip (← colon cs))
    | some field =>
      if draft.keys.contains key then .error .mismatched
      else do
        let (change, rest) ← field.read (← colon cs)
        .ok (⟨change draft.record, key :: draft.keys⟩, rest)

/-- Reads the values of the fields from a list, which may end before a field that is not
required. -/
def readItems : List (RecordField σ) → Bool → σ → Reader σ
  | [], _, record, cs =>
    match dropSpace cs with
    | [] => .error .unfinished
    | ']' :: rest => .ok (record, rest)
    | _ => .error .malformed
  | field :: fields, first, record, cs => do
    match ← nextItem first cs with
    | .close rest =>
      if (field :: fields).any (·.required) then .error .mismatched else .ok (record, rest)
    | .item rest =>
      let (change, rest) ← field.read rest
      readItems fields false (change record) rest

/-- Whether every field that is required was read. -/
def complete (fields : List (RecordField σ)) (keys : List String) : Bool :=
  fields.all fun field => !field.required || keys.contains field.name

end RecordField

/-- The codec of a record, from its fields and its first values. -/
def Codec.record {σ : Type} (blank : σ) (fields : List (RecordField σ)) : Codec σ where
  write s := object (fields.map fun field => writeMember field.name (field.write s))
  read cs :=
    match dropSpace cs with
    | '{' :: rest => do
      let (draft, rest) ←
        readMembers (RecordField.readMember fields) ('{' :: rest) true ⟨blank, []⟩ rest
      if RecordField.complete fields draft.keys then .ok (draft.record, rest)
      else .error .mismatched
    | '[' :: rest => RecordField.readItems fields true blank rest
    | rest => .error (refuse rest)

end Mintage.Json
