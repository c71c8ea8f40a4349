import Mintage.Command.Arguments

/-! Every job has arguments that ask for it. -/
namespace Mintage.Command

/-- The word of an option. -/
def Choice.word : Choice → String
  | output => "output"
  | preview => "preview"

/-- An option with its value, which is attached if it begins with a dash. -/
def Choice.arguments (choice : Choice) (value : String) : List String :=
  if value.toList.head? = some '-' then ["--" ++ choice.word ++ "=" ++ value]
  else ["--" ++ choice.word, value]

/-- The arguments of a job; the path stands behind two dashes, so that it may begin with any
character. -/
def Job.arguments (job : Job) : List String :=
  List.replicate job.verbosity "-v" ++
    ((job.output.map Choice.output.arguments).getD [] ++
      ((job.preview.map Choice.preview.arguments).getD [] ++ ["--", job.config]))

theorem switch?_word (choice : Choice) :
    switch? ("--" ++ choice.word) = some (.valued 0 choice none) := by
  cases choice <;> decide +kernel

/-- A value that begins with a dash is attached, and read as it is. -/
theorem switch?_attached (choice : Choice) {value : String}
    (dash : value.toList.head? = some '-') :
    switch? ("--" ++ choice.word ++ "=" ++ value) = some (.valued 0 choice (some value)) := by
  have given : attached value.toList = value := by
    have kept : value.toList.dropWhile (· == '=') = value.toList := by
      cases list : value.toList with
      | nil => rfl
      | cons c cs =>
        have first : c = '-' := by simpa [list] using dash
        subst first
        rfl
    rw [attached, kept, String.ofList_toList]
  have text : ("--" ++ choice.word ++ "=" ++ value).toList =
      '-' :: '-' :: (choice.word.toList ++ '=' :: value.toList) := by simp
  have word : longSwitch (choice.word.toList ++ '=' :: value.toList) =
      .valued 0 choice (some (attached value.toList)) := by
    cases choice <;> rfl
  unfold switch?
  rw [text]
  simp only [word, given]

/-- What does not begin with a dash is no option. -/
theorem switch?_eq_none {value : String} (plain : value.toList.head? ≠ some '-') :
    switch? value = none := by
  unfold switch?
  split
  · rename_i list
    simp [list] at plain
  · rename_i list
    simp [list] at plain
  · rfl

namespace Draft

variable {d : Draft}

theorem interrupt_of_idle (idle : d.waiting = none) (times : Nat) :
    d.interrupt times = { d with verbosity := d.verbosity + times } := by
  simp [interrupt, idle]

theorem interrupt_zero (idle : d.waiting = none) : d.interrupt 0 = d := interrupt_of_idle idle 0

end Draft

variable {d : Draft}

/-- An option with its value is taken, and the next arguments are read on. -/
theorem requestFrom_choice (idle : d.waiting = none) (choice : Choice) (value : String)
    (rest : List String) :
    requestFrom d (choice.arguments value ++ rest) = requestFrom (d.give choice value) rest := by
  unfold Choice.arguments
  split
  · rename_i dash
    have apart : "--" ++ choice.word ++ "=" ++ value ≠ "--" := by
      intro same
      have length := congrArg String.length same
      simp only [String.length_append] at length
      have sign : "=".length = 1 := by decide
      omega
    rw [List.cons_append, requestFrom, if_neg apart, switch?_attached choice dash]
    simp only [Draft.interrupt_zero idle, List.nil_append]
  · rename_i plain
    have apart : "--" ++ choice.word ≠ "--" := by cases choice <;> decide
    have value_apart : value ≠ "--" := by
      rintro rfl
      exact plain rfl
    rw [List.cons_append, requestFrom, if_neg apart, switch?_word choice]
    simp only [Draft.interrupt_zero idle, List.cons_append, List.nil_append]
    rw [requestFrom, if_neg value_apart, switch?_eq_none plain]
    rfl

theorem requestFrom_option (idle : d.waiting = none) (choice : Choice) (value : Option String)
    (rest : List String) :
    requestFrom d ((value.map choice.arguments).getD [] ++ rest) =
      requestFrom { d with values := d.values ++ (value.map (choice, ·)).toList } rest := by
  cases value with
  | none => simp
  | some value =>
    rw [Option.map_some, Option.getD_some, requestFrom_choice idle]
    simp [Draft.give, idle]

theorem requestFrom_verbose (idle : d.waiting = none) (times : Nat) (rest : List String) :
    requestFrom d (List.replicate times "-v" ++ rest) =
      requestFrom { d with verbosity := d.verbosity + times } rest := by
  induction times generalizing d with
  | zero => rfl
  | succ times ih =>
    have verbose : switch? "-v" = some (.verbose 1) := by decide +kernel
    rw [List.replicate_succ, List.cons_append, requestFrom, if_neg (by decide), verbose]
    have later := ih (d := { d with verbosity := d.verbosity + 1 }) idle
    simp only [Draft.interrupt_of_idle idle]
    rw [later, Nat.add_assoc, Nat.add_comm 1]

/-- No job is out of reach. -/
theorem Job.ofArguments_arguments (job : Job) : Request.ofArguments job.arguments = .work job := by
  obtain ⟨config, output, preview, verbosity⟩ := job
  unfold Request.ofArguments Job.arguments
  rw [requestFrom_verbose rfl, requestFrom_option rfl, requestFrom_option rfl, requestFrom,
    if_pos rfl]
  cases output <;> cases preview <;>
    simp [requestOfFiles, Draft.finish, Draft.valuesOf, Draft.blank]

end Mintage.Command
