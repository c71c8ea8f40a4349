import Mintage.Command.Run

/-! The command line. -/
namespace Mintage.Main

open Command

/-- The error of the system; its code may come with a sign. -/
def fileError (error : IO.Error) : FileError :=
  match error with
  | .noFileOrDirectory .. => .missing
  | .noSuchThing .. => .missing
  | .inappropriateType _ code _ =>
    if code = 20 ∨ 0 - code = 20 then .notDirectory else .isDirectory
  | .permissionDenied .. => .other "Permission denied (os error 13)"
  | error => .other (toString error)

def host : Host IO where
  read path := do
    try
      match String.fromUTF8? (← IO.FS.readBinFile path) with
      | some text => return .ok text
      | none => return .error .notText
    catch error => return .error (fileError error)
  write path text := do
    try
      IO.FS.writeFile path text
      return .ok ()
    catch error => return .error (fileError error)
  report line := IO.eprintln line

def report (result : Result) : IO UInt32 := do
  IO.print result.printed
  match result.failure with
  | some failure =>
    IO.eprintln ("Error: " ++ failure.message ++ "\n\nCaused by:\n    " ++ failure.cause)
  | none => if result.exit != 0 then IO.eprint usage
  return UInt32.ofNat result.exit

end Mintage.Main

def main (arguments : List String) : IO UInt32 := do
  Mintage.Main.report (← Mintage.Command.execute Mintage.Main.host arguments)
