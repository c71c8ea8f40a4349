import Mintage.Text.Blank

/-! Files, and a directory that is held in memory. -/
namespace Mintage.Command

inductive FileError where
  | missing
  | notDirectory
  | isDirectory
  | notText
  | other (message : String)
  deriving DecidableEq, Repr

def FileError.message : FileError → String
  | missing => "No such file or directory (os error 2)"
  | notDirectory => "Not a directory (os error 20)"
  | isDirectory => "Is a directory (os error 21)"
  | notText => "stream did not contain valid UTF-8"
  | other message => message

/-- A directory without directories in it, that is the only one besides those around it. -/
structure Directory where
  files : List (String × ByteArray)

namespace Directory

def contents? (d : Directory) (name : String) : Option ByteArray := d.files.lookup name

/-- What a path leads to: a directory, or a place for a file. A path with a slash at its end wants
a directory. -/
inductive Place where
  | directory
  | file (name : String) (slash : Bool)
  deriving DecidableEq, Repr

def components (path : String) : List String :=
  ((Text.pieces (· == '/') path.toList).filter (!·.isEmpty)).map String.ofList

/-- A path may begin with steps that stay in the directory. -/
def place (d : Directory) (path : String) : Except FileError Place :=
  let steps := (components path).dropWhile (· == ".")
  let isAbsolute := path.toList.head? = some '/'
  let goesUp := steps.head? = some ".."
  if path.isEmpty then .error .missing
  else if steps.isEmpty then .ok .directory
  else if isAbsolute then .error .missing
  else if goesUp then
    if steps.all (fun step => step == ".." || step == ".") then .ok .directory
    else .error .missing
  else
    match steps with
    | [name] => .ok (.file name (path.toList.getLast? = some '/'))
    | name :: _ => .error (if (d.contents? name).isSome then .notDirectory else .missing)
    | [] => .ok .directory

def read (d : Directory) (path : String) : Except FileError String := do
  match ← d.place path with
  | .directory => .error .isDirectory
  | .file name slash =>
    match d.contents? name with
    | none => .error .missing
    | some bytes =>
      if slash then .error .notDirectory
      else
        match String.fromUTF8? bytes with
        | some text => .ok text
        | none => .error .notText

/-- The directory after a file is written; one of the same name is replaced. -/
def write (d : Directory) (path text : String) : Except FileError Directory := do
  match ← d.place path with
  | .directory => .error .isDirectory
  | .file _ true => .error .isDirectory
  | .file name false => .ok ⟨(name, text.toUTF8) :: d.files.filter (·.1 != name)⟩

end Directory

/-- What a command needs from its surroundings. -/
structure Host (m : Type → Type) where
  read : String → m (Except FileError String)
  write : String → String → m (Except FileError Unit)
  report : String → m Unit

/-- The host that is a directory in memory; reports are lost. -/
def Host.inMemory : Host (StateM Directory) where
  read path := fun d => (d.read path, d)
  write path text := fun d =>
    match d.write path text with
    | .ok next => (.ok (), next)
    | .error error => (.error error, d)
  report _ := pure ()

end Mintage.Command
