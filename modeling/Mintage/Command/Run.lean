import Mintage.Command.Arguments
import Mintage.Command.Files
import Mintage.Contract.Assembly
import Mintage.Contract.Notice
import Mintage.Settings.Json

/-! Runs of the command. -/
namespace Mintage.Command

inductive NumberError where
  | empty
  | notDigit
  | tooLarge
  deriving DecidableEq, Repr

def NumberError.message : NumberError → String
  | empty => "cannot parse integer from empty string"
  | notDigit => "invalid digit found in string"
  | tooLarge => "number too large to fit in target type"

/-- Reads on in a number below `2 ^ 64`; the first wrong character decides. -/
def readDigits (number : Nat) : List Char → Except NumberError Nat
  | [] => .ok number
  | c :: cs =>
    if !c.isDigit then .error .notDigit
    else
      let next := 10 * number + Decimal.value [c]
      if next < UInt64.size then readDigits next cs else .error .tooLarge

/-- A number of a token, perhaps with a plus sign in front. -/
def readTokenId (s : String) : Except NumberError Nat :=
  match s.toList with
  | [] => .error .empty
  | ['+'] => .error .notDigit
  | '+' :: cs => readDigits 0 cs
  | cs => readDigits 0 cs

/-- The stage of a run that failed. -/
inductive Failure where
  | unreadable (path : String) (error : FileError)
  | unparsable (path : String) (fault : Json.Fault)
  | badTemplate (template : String) (error : Template.Error)
  | badTokenId (text : String) (error : NumberError)
  | unwritable (path : String) (error : FileError)
  deriving DecidableEq, Repr

namespace Failure

def message : Failure → String
  | unreadable path _ => "Failed to read config file: " ++ path
  | unparsable path _ => "Failed to parse config file: " ++ path
  | badTemplate template _ => "Invalid token URI: " ++ template
  | badTokenId text _ => "Invalid token id: " ++ text
  | unwritable path _ => "Failed to write output file: " ++ path

def cause : Failure → String
  | unreadable _ error => error.message
  | unparsable _ _ => "Invalid contract configuration"
  | badTemplate _ error => error.message
  | badTokenId _ error => error.message
  | unwritable _ error => error.message

end Failure

/-- What a run has to show: the address of a token, or a contract. -/
inductive Outcome where
  | address (uri : String)
  | contract (settings : Settings)

namespace Outcome

def text : Outcome → String
  | address uri => uri ++ "\n"
  | contract settings => settings.source

def notices : Outcome → List Notice
  | address _ => []
  | contract settings => settings.notices ++ [.baseUri (Template.leading settings.tokenUri)]

end Outcome

namespace Job

/-- Reads the settings; the template is checked before all else. -/
def settings (job : Job) (source : Except FileError String) : Except Failure Settings := do
  let text ← source.mapError (.unreadable job.config)
  let settings ← (Settings.parse text).mapError (.unparsable job.config)
  let _ ← (Template.parseUri settings.tokenUri).mapError (.badTemplate settings.tokenUri)
  .ok settings

/-- What the job has to show, from what the file holds. -/
def outcome (job : Job) (source : Except FileError String) : Except Failure Outcome := do
  let settings ← job.settings source
  match job.preview with
  | none => .ok (.contract settings)
  | some text =>
    let tokenId ← (readTokenId text).mapError (.badTokenId text)
    let uri ← (Template.uri settings.tokenUri tokenId settings.parameterNames).mapError
      (.badTemplate settings.tokenUri)
    .ok (.address uri)

/-- The file for the outcome; an address is always printed. -/
def target (job : Job) : Outcome → Option String
  | .address _ => none
  | .contract _ => job.output

/-- Whether notices of a level are reported. -/
def shows (job : Job) : Level → Bool
  | .warning => true
  | .info => 1 ≤ job.verbosity
  | .debug => 2 ≤ job.verbosity

variable {m : Type → Type} [Monad m]

/-- Prints the outcome, or saves it and says so. -/
def deliver (host : Host m) (job : Job) (outcome : Outcome) : m (Except Failure String) := do
  match job.target outcome with
  | none => return .ok outcome.text
  | some path =>
    match ← host.write path outcome.text with
    | .ok _ => return .ok ("Successfully generated " ++ path ++ "\n")
    | .error error => return .error (.unwritable path error)

/-- Does the job, and returns what is to be printed. -/
def run (host : Host m) (job : Job) : m (Except Failure String) := do
  match job.outcome (← host.read job.config) with
  | .error failure => return .error failure
  | .ok outcome =>
    for notice in outcome.notices do
      if job.shows notice.level then host.report notice.line
    deliver host job outcome

end Job

/-- What a command leaves: an exit code, the text that it prints, and its failure. -/
structure Result where
  exit : Nat
  printed : String
  failure : Option Failure

def usage : String :=
  "Usage: " ++ Product.name ++ " [-v]... [-o FILE] [--preview TOKEN_ID] CONFIG\n"

def versionLine : String := Product.name ++ " " ++ Product.version ++ "\n"

section

variable {m : Type → Type} [Monad m]

/-- A command whose arguments are read in any way. -/
def executeBy (reads : List String → Request) (host : Host m) (arguments : List String) :
    m Result := do
  match reads arguments with
  | .version => return ⟨0, versionLine, none⟩
  | .help => return ⟨0, usage, none⟩
  | .refused => return ⟨1, "", none⟩
  | .work job =>
    match ← job.run host with
    | .ok text => return ⟨0, text, none⟩
    | .error failure => return ⟨1, "", some failure⟩

def execute (host : Host m) (arguments : List String) : m Result :=
  executeBy Request.ofArguments host arguments

end

end Mintage.Command
