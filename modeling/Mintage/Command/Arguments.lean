/-! Arguments of the command line. -/
namespace Mintage.Command

/-- The options that have a value. -/
inductive Choice where
  | output
  | preview
  deriving DecidableEq, Repr

/-- A file to read, and what to do with it. -/
structure Job where
  config : String
  output : Option String
  preview : Option String
  verbosity : Nat
  deriving DecidableEq, Repr

inductive Request where
  | work (job : Job)
  | version
  | help
  | refused
  deriving DecidableEq, Repr

/-- What an argument with a dash in front says. -/
inductive Switch where
  | stop (request : Request)
  | verbose (times : Nat)
  | valued (times : Nat) (choice : Choice) (value : Option String)
  deriving DecidableEq, Repr

/-- A value that is attached to its option; signs of equality in front do not count. -/
def attached (cs : List Char) : String := String.ofList (cs.dropWhile (· == '='))

/-- A word behind dashes, perhaps with a value behind a sign of equality. -/
def longSwitch (cs : List Char) : Switch :=
  let cs := cs.dropWhile (· == '-')
  let value := match cs.dropWhile (· != '=') with
    | [] => none
    | _ :: rest => some (attached rest)
  match String.ofList (cs.takeWhile (· != '=')) with
  | "output" => .valued 0 .output value
  | "preview" => .valued 0 .preview value
  | "verbose" => .verbose 1
  | "version" => .stop .version
  | "help" => .stop .help
  | _ => .stop .refused

/-- Letters behind one dash. What follows the letter of an option with a value is its value. -/
def shortSwitch (times : Nat) : List Char → Switch
  | [] => .verbose times
  | 'o' :: rest => .valued times .output (if rest.isEmpty then none else some (attached rest))
  | 'v' :: rest => shortSwitch (times + 1) rest
  | 'V' :: _ => .stop .version
  | 'h' :: _ => .stop .help
  | _ :: _ => .stop .refused

/-- The switch of an argument; a lone dash is a value. -/
def switch? (argument : String) : Option Switch :=
  match argument.toList with
  | '-' :: '-' :: cs => some (longSwitch cs)
  | '-' :: c :: cs => some (shortSwitch 0 (c :: cs))
  | _ => none

/-- The arguments so far. An option that waits for its value lacks it if another option
follows. -/
structure Draft where
  config : Option String
  values : List (Choice × String)
  verbosity : Nat
  waiting : Option Choice
  lacking : Bool

namespace Draft

def blank : Draft := ⟨none, [], 0, none, false⟩

/-- Begins with another option. -/
def interrupt (d : Draft) (times : Nat) : Draft :=
  { d with
    verbosity := d.verbosity + times
    waiting := none
    lacking := d.lacking || d.waiting.isSome }

def give (d : Draft) (choice : Choice) (value : String) : Draft :=
  { d with values := d.values ++ [(choice, value)], waiting := none }

def valuesOf (d : Draft) (choice : Choice) : List String :=
  (d.values.filter (·.1 == choice)).map (·.2)

/-- The request of all arguments; every option may occur once and needs its value. -/
def finish (d : Draft) : Request :=
  let outputs := d.valuesOf .output
  let previews := d.valuesOf .preview
  if d.lacking || d.waiting.isSome || 1 < outputs.length || 1 < previews.length then .refused
  else
    match d.config with
    | none => .refused
    | some config => .work ⟨config, outputs.head?, previews.head?, d.verbosity⟩

end Draft

/-- The request for the arguments that come behind two dashes: files only. -/
def requestOfFiles (d : Draft) : List String → Request
  | [] => d.finish
  | argument :: arguments =>
    if d.config.isSome then .refused
    else requestOfFiles { d with config := some argument } arguments

def requestFrom (d : Draft) : List String → Request
  | [] => d.finish
  | argument :: arguments =>
    if argument = "--" then requestOfFiles d arguments
    else
      match switch? argument with
      | some (.stop request) => request
      | some (.verbose times) => requestFrom (d.interrupt times) arguments
      | some (.valued times choice (some value)) =>
        requestFrom ((d.interrupt times).give choice value) arguments
      | some (.valued times choice none) =>
        requestFrom { d.interrupt times with waiting := some choice } arguments
      | none =>
        match d.waiting with
        | some choice => requestFrom (d.give choice argument) arguments
        | none =>
          if d.config.isSome then .refused
          else requestFrom { d with config := some argument } arguments

/-- The request of a list of arguments. The first one that is wrong, or that asks for the version
or for help, decides. -/
def Request.ofArguments (arguments : List String) : Request := requestFrom .blank arguments

end Mintage.Command
