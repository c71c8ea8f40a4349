/-! Templates: texts with slots in braces. A slot that the end of the text leaves open is closed
there, and an empty one is nothing. -/
namespace Mintage.Template

inductive Token where
  | text (s : String)
  | slot (name : String)
  deriving DecidableEq, Repr

inductive Error where
  | unmatchedBrackets
  | unrecognized (name : String)
  deriving DecidableEq, Repr

def Error.message : Error → String
  | unmatchedBrackets => "Brackets \x7b\x7d don't match!"
  | unrecognized name => "Unrecognized variable " ++ name ++ "."

/-- Where a character stands: outside of braces or inside. -/
inductive Place where
  | text
  | slot
  deriving DecidableEq, Repr

/-- The token of a run of characters, last character first; there is none for an empty run. -/
def Place.tokens (place : Place) (run : List Char) : List Token :=
  if run.isEmpty then []
  else
    match place with
    | .text => [.text (String.ofList run.reverse)]
    | .slot => [.slot (String.ofList run.reverse)]

/-- The tokens of a run and of what follows it; none if a brace closes that was not opened. -/
def scan : Place → List Char → List Char → Option (List Token)
  | place, run, [] => some (place.tokens run)
  | .text, run, c :: cs =>
    if c = '{' then (scan .slot [] cs).map (Place.text.tokens run ++ ·)
    else if c = '}' then none
    else scan .text (c :: run) cs
  | .slot, run, c :: cs =>
    if c = '}' then (scan .text [] cs).map (Place.slot.tokens run ++ ·)
    else scan .slot (c :: run) cs

def parse (template : String) : Except Error (List Token) :=
  match scan .text [] template.toList with
  | none => .error .unmatchedBrackets
  | some tokens => .ok tokens

/-- The template of a list of tokens. -/
def Token.source : Token → String
  | text s => s
  | slot name => String.ofList ('{' :: (name.toList ++ ['}']))

/-- The text of a template in which every slot has been given a value. -/
def Token.fill (value : String → String) : Token → String
  | text s => s
  | slot name => value name

def fillAll (value : String → String) (tokens : List Token) : String :=
  String.join (tokens.map (Token.fill value))

/-- Fills a template for display. -/
def populate (template : String) (value : String → String) : Except Error String :=
  (parse template).map (fillAll value)

/-- The text before the first slot. -/
def leading (template : String) : String :=
  match parse template with
  | .ok (.text s :: _) => s
  | _ => ""

end Mintage.Template
