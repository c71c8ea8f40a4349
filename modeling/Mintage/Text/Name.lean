/-! Names of contracts and of what they declare: letters, digits, `$` and `_`, no digit first. -/
namespace Mintage.Text

def startsName (c : Char) : Bool := c.isAlpha || c == '$' || c == '_'

def continuesName (c : Char) : Bool := c.isAlphanum || c == '$' || c == '_'

theorem continuesName_of_startsName {c : Char} (h : startsName c = true) :
    continuesName c = true := by
  simp only [startsName, continuesName, Char.isAlphanum, Bool.or_eq_true] at h ⊢
  rcases h with (h | h) | h <;> simp [h]

def isName (s : String) : Bool :=
  match s.toList with
  | [] => false
  | c :: cs => startsName c && cs.all continuesName

/-- The name of a contract whose title holds no letter. -/
def unnamed : String := "Contract"

/-- The legal characters of a title, from the first that may start a name. -/
def contractName (title : String) : String :=
  match (title.toList.filter continuesName).dropWhile (!startsName ·) with
  | [] => unnamed
  | name => String.ofList name

end Mintage.Text
