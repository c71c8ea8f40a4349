import Mintage.Template.Token

/-! Templates for the addresses of the tokens, in which two slots are known. -/
namespace Mintage.Template

/-- The slot for the number of the token. -/
def tokenIdSlot : String := "tokenId"

/-- The slot for the parameters of the token, as a query. -/
def parametersSlot : String := "parameters"

/-- The name of a slot that is not known. -/
def Token.stranger? : Token → Option String
  | text _ => none
  | slot name => if name = tokenIdSlot ∨ name = parametersSlot then none else some name

/-- The first slot that is not known is an error, after any error of the braces. -/
def parseUri (template : String) : Except Error (List Token) := do
  let tokens ← parse template
  match tokens.findSome? Token.stranger? with
  | some name => .error (.unrecognized name)
  | none => .ok tokens

/-- What stands before each value in a query. -/
def queryKeys : List String → List String
  | [] => []
  | name :: names => ("?" ++ name ++ "=") :: names.map fun name => "&" ++ name ++ "="

/-- The query that gives every parameter the value `0`. -/
def sampleQuery (names : List String) : String :=
  String.join ((queryKeys names).map (· ++ "0"))

/-- The value of a known slot. -/
def slotValue (tokenId : Nat) (names : List String) (slot : String) : String :=
  if slot = tokenIdSlot then toString tokenId else sampleQuery names

/-- The address of one token, whose parameters have the value `0`. -/
def uri (template : String) (tokenId : Nat) (names : List String) : Except Error String :=
  (parseUri template).map (fillAll (slotValue tokenId names))

end Mintage.Template
