import Mintage.Proofs.Execution.Value
import Mintage.Proofs.Text.Plain
import Mintage.Solidity.OneLine
import Mintage.Text.Name

/-! The names that occur in the code of a contract and that no local of the code declares. -/
namespace Mintage.Solidity

/-- Where a reader of source text stands. -/
inductive Spot where
  | outside
  | behindDot
  /-- In a name, whose characters are reversed. -/
  | name (run : List Char)
  /-- In a number or in the name of a member. -/
  | skipped
  | literal (escaped : Bool)

/-- Where the reader stands behind the first character of something. -/
def Spot.start (c : Char) : Spot :=
  if Text.startsName c then name [c]
  else if c.isDigit then skipped
  else if c = '"' then literal false
  else if c = '.' then behindDot
  else outside

/-- The names in a text, but for members and what stands in quotes. -/
def namesFrom : Spot → List Char → List String
  | .name run, [] => [String.ofList run.reverse]
  | _, [] => []
  | .outside, c :: cs => namesFrom (.start c) cs
  | .behindDot, c :: cs => namesFrom (if Text.startsName c then .skipped else .start c) cs
  | .name run, c :: cs =>
    if Text.continuesName c then namesFrom (.name (c :: run)) cs
    else String.ofList run.reverse :: namesFrom (.start c) cs
  | .skipped, c :: cs => namesFrom (if Text.continuesName c then .skipped else .start c) cs
  | .literal true, _ :: cs => namesFrom (.literal false) cs
  | .literal false, c :: cs =>
    namesFrom (if c = '\\' then .literal true else if c = '"' then .outside else .literal false) cs

def namesIn (text : String) : List String := namesFrom .outside text.toList

example : namesIn "a >= b ? ids[2].length : string(\"c d\")" = ["a", "b", "ids", "string"] := by
  decide

/-- What the settings put into the code as it is: names of parameters and addresses. -/
structure Given where
  fields : List String
  keys : List String

/-- How many characters the longest field has with which a text starts. -/
def longestField (fields : List String) (cs : List Char) : Nat :=
  ((fields.filter fun field => field.toList.isPrefixOf cs).map String.length).foldr max 0

/-- The text without the given name of a parameter. -/
def withoutField (fields : List String) : List Char → List Char
  | [] => []
  | c :: cs =>
    if "parameters.".toList.isPrefixOf (c :: cs) then
      let rest := (c :: cs).drop "parameters.".length
      "parameters.".toList ++ rest.drop (longestField fields rest)
    else c :: withoutField fields cs

/-- Whether an expression is an address that is given. -/
def Expr.isKey (keys : List String) : Expr → Bool
  | .ident text => keys.contains text
  | _ => false

mutual

def Expr.names (g : Given) : Expr → List String
  | .ident text => namesFrom .outside (withoutField g.fields text.toList)
  | .member object _ => object.names g
  | .index object key => object.names g ++ if key.isKey g.keys then [] else key.names g
  | .call callee arguments => callee.names g ++ Expr.allNames g arguments
  | .callNamed callee arguments => callee.names g ++ Expr.namedNames g arguments
  | .assign target _ value => target.names g ++ value.names g
  | .binary left _ right => left.names g ++ right.names g
  | .number _ => []
  | .string _ => []
  | .bool _ => []

def Expr.allNames (g : Given) : List Expr → List String
  | [] => []
  | e :: es => e.names g ++ Expr.allNames g es

def Expr.namedNames (g : Given) : List (String × Expr) → List String
  | [] => []
  | (_, e) :: es => e.names g ++ Expr.namedNames g es

end

namespace Variable

/-- The names in the type and the modifiers of a variable. -/
def headerNames (v : Variable) : List String :=
  namesIn v.type ++ v.modifiers.flatMap namesIn

def names (g : Given) (v : Variable) : List String :=
  v.headerNames ++ (v.value.map (Expr.names g)).getD []

end Variable

/-- The locals that a statement declares for those behind it. -/
def Stmt.bound : Stmt → List String
  | .decl v => [v.name]
  | _ => []

mutual

/-- The names in a statement that it does not declare itself. -/
def Stmt.names (g : Given) : Stmt → List String
  | .expr e => e.names g
  | .decl v => v.names g
  | .ret none => []
  | .ret (some e) => e.names g
  | .cond test body alternative =>
    test.names g ++ Stmt.blockNames g body ++ Stmt.alternativeNames g alternative
  | .loop start test step body =>
    (namesIn start ++ namesIn test ++ namesIn step ++ Stmt.blockNames g body).filter fun name =>
      !List.contains [(Variable.ofLine start).name] name

/-- A local has its name for the rest of the block. -/
def Stmt.blockNames (g : Given) : List Stmt → List String
  | [] => []
  | s :: ss => s.names g ++ (Stmt.blockNames g ss).filter fun name => !s.bound.contains name

def Stmt.alternativeNames (g : Given) : Option (List Stmt) → List String
  | none => []
  | some ss => Stmt.blockNames g ss

end

/-- The names in the types of arguments. -/
def argumentTypes (arguments : List String) : List String :=
  (arguments.filterMap argumentOf).flatMap fun argument => namesIn argument.2

def argumentNames (arguments : List String) : List String :=
  (arguments.filterMap argumentOf).map Prod.fst

theorem mem_argumentNames {arguments : List String} {line name type : String}
    (mem : line ∈ arguments) (read : argumentOf line = some (name, type)) :
    name ∈ argumentNames arguments :=
  List.mem_map.2 ⟨_, List.mem_filterMap.2 ⟨line, mem, read⟩, rfl⟩

/-- The names that are left of some when the arguments are taken away. -/
def beyondArguments (arguments names : List String) : List String :=
  names.filter fun name => !(argumentNames arguments).contains name

def Function.names (g : Given) (f : Function) : List String :=
  argumentTypes f.arguments ++ f.modifiers.flatMap namesIn ++ (f.result.map namesIn).getD [] ++
    beyondArguments f.arguments (Stmt.blockNames g f.body)

def Constructor.names (g : Given) (c : Constructor) : List String :=
  argumentTypes c.arguments ++
    beyondArguments c.arguments
      ((c.base.map (Expr.names g)).getD [] ++ Stmt.blockNames g c.body)

/-- The names in a member. A constant address is given, and the keys are given to the constructor
only. -/
def Member.names (g : Given) : Member → List String
  | declaration (.field v) =>
    if v.type = "address" ∧ "constant" ∈ v.modifiers then v.headerNames
    else v.names { g with keys := [] }
  | declaration (.function f) => f.names { g with keys := [] }
  | declaration (.constructor c) => c.names g
  | declaration (.record _ members) => members.flatMap (Variable.names { g with keys := [] })
  | declaration (.attach library type) => namesIn library ++ namesIn type
  | comment _ => []

def Contract.names (g : Given) (c : Contract) : List String :=
  c.bases.flatMap namesIn ++ c.body.flatMap (Member.names g)

section

variable {g : Given}

/-- In a name the reader goes on to its end. -/
theorem namesFrom_name {cs : List Char} (rest : cs.all Text.continuesName) (run : List Char) :
    namesFrom (.name run) cs = [String.ofList (run.reverse ++ cs)] := by
  induction cs generalizing run with
  | nil => simp [namesFrom]
  | cons c cs ih =>
    rw [List.all_cons, Bool.and_eq_true] at rest
    rw [namesFrom, if_pos rest.1, ih rest.2]
    simp

/-- A name has no dot, so no parameter is read in it. -/
theorem withoutField_of_isName {cs : List Char} (name : cs.all Text.continuesName)
    (fields : List String) : withoutField fields cs = cs := by
  induction cs with
  | nil => rfl
  | cons c cs ih =>
    have notField : ¬ "parameters.".toList.isPrefixOf (c :: cs) := by
      intro starts
      obtain ⟨rest, split⟩ := List.isPrefixOf_iff_prefix.1 starts
      have dot : '.' ∈ c :: cs := by
        rw [← split]
        exact List.mem_append_left _ (by decide)
      exact absurd (List.all_eq_true.1 name '.' dot) (by decide)
    rw [List.all_cons, Bool.and_eq_true] at name
    rw [withoutField, if_neg notField, ih name.2]

/-- A name is read as itself. -/
theorem Expr.names_ident {text : String} (isName : Text.isName text = true) :
    (Expr.ident text).names g = [text] := by
  obtain ⟨c, cs, chars, first, rest⟩ := Text.exists_of_isName isName
  rw [Expr.names, withoutField_of_isName (Text.all_of_isName isName), chars, namesFrom, Spot.start,
    if_pos first, namesFrom_name rest]
  simp [← chars]

@[simp] theorem Expr.names_member (object : Expr) (name : String) :
    (member object name).names g = object.names g := rfl

/-- A key that is no address is read as any expression. -/
@[simp] theorem Expr.names_index (fields : List String) (object key : Expr) :
    (index object key).names ⟨fields, []⟩ =
      object.names ⟨fields, []⟩ ++ key.names ⟨fields, []⟩ := by
  have noKey : key.isKey [] = false := by cases key <;> rfl
  simp [names, noKey]

@[simp] theorem Expr.names_call (callee : Expr) (arguments : List Expr) :
    (call callee arguments).names g = callee.names g ++ Expr.allNames g arguments := rfl

@[simp] theorem Expr.names_assign (target : Expr) (operator : String) (value : Expr) :
    (assign target operator value).names g = target.names g ++ value.names g := rfl

@[simp] theorem Expr.names_binary (left : Expr) (operator : String) (right : Expr) :
    (binary left operator right).names g = left.names g ++ right.names g := rfl

@[simp] theorem Expr.names_number (digits : String) : (number digits).names g = [] := rfl

@[simp] theorem Expr.names_nat (n : Nat) : (nat n).names g = [] := rfl

@[simp] theorem Expr.names_string (s : String) : (string s).names g = [] := rfl

@[simp] theorem Expr.names_bool (b : Bool) : (bool b).names g = [] := rfl

@[simp] theorem Expr.allNames_nil : Expr.allNames g [] = [] := rfl

@[simp] theorem Expr.allNames_cons (e : Expr) (es : List Expr) :
    Expr.allNames g (e :: es) = e.names g ++ Expr.allNames g es := rfl

@[simp] theorem Stmt.names_expr (e : Expr) : (expr e).names g = e.names g := rfl

@[simp] theorem Stmt.names_returns (e : Expr) : (returns e).names g = e.names g := rfl

@[simp] theorem Stmt.names_set (target value : Expr) :
    (set target value).names g = target.names g ++ value.names g := rfl

@[simp] theorem Stmt.names_require (test : Expr) (message : String) :
    (require test message).names g = (Expr.ident "require").names g ++ test.names g := by
  rw [require, names_expr, Expr.apply, Expr.names_call, Expr.allNames_cons, Expr.allNames_cons,
    Expr.names_string, Expr.allNames_nil, List.append_nil, List.append_nil]

@[simp] theorem Stmt.names_cond (test : Expr) (body : List Stmt)
    (alternative : Option (List Stmt)) :
    (cond test body alternative).names g =
      test.names g ++ (Stmt.blockNames g body ++ Stmt.alternativeNames g alternative) := by
  rw [names, List.append_assoc]

@[simp] theorem Stmt.alternativeNames_none : Stmt.alternativeNames g none = [] := rfl

@[simp] theorem Stmt.alternativeNames_some (ss : List Stmt) :
    Stmt.alternativeNames g (some ss) = Stmt.blockNames g ss := rfl

@[simp] theorem Stmt.blockNames_nil : Stmt.blockNames g [] = [] := rfl

@[simp] theorem Stmt.bound_expr (e : Expr) : (expr e).bound = [] := rfl

@[simp] theorem Stmt.bound_returns (e : Expr) : (returns e).bound = [] := rfl

@[simp] theorem Stmt.bound_require (test : Expr) (message : String) :
    (require test message).bound = [] := rfl

@[simp] theorem Stmt.bound_set (target value : Expr) : (set target value).bound = [] := rfl

@[simp] theorem Stmt.bound_cond (test : Expr) (body : List Stmt)
    (alternative : Option (List Stmt)) : (cond test body alternative).bound = [] := rfl

@[simp] theorem Stmt.bound_declare (type name : String) (value : Expr) :
    (declare type name value).bound = [name] := rfl

@[simp] theorem Stmt.names_declare (type name : String) (value : Expr) :
    (declare type name value).names g = namesIn type ++ value.names g := by
  simp [declare, names, Variable.names, Variable.headerNames]

theorem Member.names_field (type : String) (modifiers : List String) (name : String) :
    (field type modifiers name).names g = namesIn type ++ modifiers.flatMap namesIn := by
  simp only [field, names, Variable.names, Variable.headerNames, Option.map_none,
    Option.getD_none, List.append_nil, ite_self]

theorem Member.names_fieldWith {type : String} (noAddress : type ≠ "address")
    (modifiers : List String) (name : String) (value : Expr) :
    (fieldWith type modifiers name value).names g =
      namesIn type ++ modifiers.flatMap namesIn ++ value.names ⟨g.fields, []⟩ := by
  simp only [fieldWith, names, noAddress, false_and, if_false, Variable.names,
    Variable.headerNames, Option.map_some, Option.getD_some]

end

end Mintage.Solidity
