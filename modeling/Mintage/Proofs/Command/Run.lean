import Mintage.Command.Run
import Mintage.Proofs.Command.Arguments
import Mintage.Proofs.Command.Files
import Mintage.Proofs.Template

/-! How a run ends on any host that keeps to the laws, and with any reading of the arguments: at the
first stage that fails, and then with nothing printed and nothing written, or with the text that it
was asked for, printed or in a file. -/
namespace Mintage.Command

variable {σ : Type}

/-- The file of a job holds settings whose template is accepted. -/
structure Job.Loads (job : Job) (host : Host (StateM σ)) (s : σ) (settings : Settings) : Prop where
  parsed : ∃ text, (host.read job.config s).1 = .ok text ∧ Settings.parse text = .ok settings
  accepted : ∃ tokens, Template.parseUri settings.tokenUri = .ok tokens

/-- How a run ends, and the state that it leaves. Each case tells what all stages in front of the
last one gave. -/
inductive Job.Ends (job : Job) (host : Host (StateM σ)) (s : σ) : Except Failure String → σ → Prop
  | unreadable {error : FileError} (read : (host.read job.config s).1 = .error error) :
    Ends job host s (.error (.unreadable job.config error)) s
  | unparsable {text : String} {fault : Json.Fault} (read : (host.read job.config s).1 = .ok text)
    (parsed : Settings.parse text = .error fault) :
    Ends job host s (.error (.unparsable job.config fault)) s
  | badTemplate {text : String} {settings : Settings} {error : Template.Error}
    (read : (host.read job.config s).1 = .ok text) (parsed : Settings.parse text = .ok settings)
    (refused : Template.parseUri settings.tokenUri = .error error) :
    Ends job host s (.error (.badTemplate settings.tokenUri error)) s
  | badTokenId {settings : Settings} {preview : String} {error : NumberError}
    (loads : job.Loads host s settings) (asked : job.preview = some preview)
    (number : readTokenId preview = .error error) :
    Ends job host s (.error (.badTokenId preview error)) s
  | address {settings : Settings} {preview uri : String} {tokenId : Nat}
    (loads : job.Loads host s settings) (asked : job.preview = some preview)
    (number : readTokenId preview = .ok tokenId)
    (shown : Template.uri settings.tokenUri tokenId settings.parameterNames = .ok uri) :
    Ends job host s (.ok (uri ++ "\n")) s
  | printed {settings : Settings} (loads : job.Loads host s settings)
    (contract : job.preview = none) (unnamed : job.output = none) :
    Ends job host s (.ok settings.source) s
  | unwritable {settings : Settings} {path : String} {error : FileError} {after : σ}
    (loads : job.Loads host s settings) (contract : job.preview = none)
    (named : job.output = some path)
    (written : host.write path settings.source s = (.error error, after)) :
    Ends job host s (.error (.unwritable path error)) after
  | saved {settings : Settings} {path : String} {after : σ}
    (loads : job.Loads host s settings) (contract : job.preview = none)
    (named : job.output = some path)
    (written : host.write path settings.source s = (.ok (), after)) :
    Ends job host s (.ok ("Successfully generated " ++ path ++ "\n")) after

theorem mapError_ok {α ε ε' : Type} (f : ε → ε') (a : α) : (Except.ok a).mapError f = .ok a := rfl

theorem mapError_error {α ε ε' : Type} (f : ε → ε') (error : ε) :
    (Except.error error : Except ε α).mapError f = .error (f error) := rfl

namespace Job

variable (job : Job) (host : Host (StateM σ)) (s : σ)

/-- Every run ends in one of the ways listed; nothing is left to the host but its answers. -/
theorem exists_ends : ∃ result after, job.Ends host s result after := by
  cases read : (host.read job.config s).1 with
  | error error => exact ⟨_, _, .unreadable read⟩
  | ok text =>
  cases parsed : Settings.parse text with
  | error fault => exact ⟨_, _, .unparsable read parsed⟩
  | ok settings =>
  cases accepted : Template.parseUri settings.tokenUri with
  | error error => exact ⟨_, _, .badTemplate read parsed accepted⟩
  | ok tokens =>
  have loads : job.Loads host s settings := ⟨⟨text, read, parsed⟩, tokens, accepted⟩
  cases asked : job.preview with
  | some preview =>
    cases number : readTokenId preview with
    | error error => exact ⟨_, _, .badTokenId loads asked number⟩
    | ok tokenId =>
      exact ⟨_, _, .address loads asked number (Template.uri_of_parseUri accepted _ _)⟩
  | none =>
    cases named : job.output with
    | none => exact ⟨_, _, .printed loads asked named⟩
    | some path =>
      cases written : host.write path settings.source s with
      | mk answer after =>
        cases answer with
        | error error => exact ⟨_, _, .unwritable loads asked named written⟩
        | ok nothing => exact ⟨_, _, .saved loads asked named written⟩

variable {host}

/-- However many notices there are, reporting them leaves the state as it is. -/
theorem reports_keep (lawful : host.Lawful) (notices : List Notice) :
    (forIn notices PUnit.unit fun notice _ => do
      if job.shows notice.level then host.report notice.line
      pure (ForInStep.yield PUnit.unit) : StateM σ PUnit) s = (PUnit.unit, s) := by
  simp only [lawful.report_eq, pure_bind, ite_self, List.forIn_pure_yield_eq_foldl]
  rfl

/-- A run reads its file in the state that it finds, and delivers in that state. -/
theorem run_eq_deliver (lawful : host.Lawful) :
    job.run host s =
      match job.outcome (host.read job.config s).1 with
      | .error failure => (.error failure, s)
      | .ok outcome => deliver host job outcome s := by
  have read : host.read job.config s = ((host.read job.config s).1, s) :=
    Prod.ext rfl (lawful.read_keeps job.config s)
  generalize (host.read job.config s).1 = source at read ⊢
  simp only [run, bind, StateT.bind, read]
  cases job.outcome source with
  | error failure => rfl
  | ok outcome =>
    have reports := job.reports_keep s lawful outcome.notices
    simp only [bind, pure, StateT.bind] at reports ⊢
    rw [reports]

variable {job s} {settings : Settings} {result : Except Failure String} {after : σ}

theorem Loads.settings_eq (loads : job.Loads host s settings) :
    job.settings (host.read job.config s).1 = .ok settings := by
  obtain ⟨⟨text, read, parsed⟩, tokens, accepted⟩ := loads
  simp [Job.settings, read, parsed, accepted, mapError_ok, bind, Except.bind]

theorem Loads.outcome_contract (loads : job.Loads host s settings)
    (contract : job.preview = none) :
    job.outcome (host.read job.config s).1 = .ok (.contract settings) := by
  simp [outcome, loads.settings_eq, contract, bind, Except.bind]

/-- The ways to end are those of the run: it gives the result and leaves the state of its case. -/
theorem Ends.run_eq (lawful : host.Lawful) (ends : job.Ends host s result after) :
    job.run host s = (result, after) := by
  rw [run_eq_deliver job s lawful]
  cases ends with
  | unreadable read => simp [outcome, Job.settings, read, mapError_error, bind, Except.bind]
  | unparsable read parsed =>
    simp [outcome, Job.settings, read, parsed, mapError_ok, mapError_error, bind, Except.bind]
  | badTemplate read parsed refused =>
    simp [outcome, Job.settings, read, parsed, refused, mapError_ok, mapError_error, bind,
      Except.bind]
  | badTokenId loads asked number =>
    simp [outcome, loads.settings_eq, asked, number, mapError_error, bind, Except.bind]
  | address loads asked number shown =>
    simp [outcome, loads.settings_eq, asked, number, shown, mapError_ok, bind, Except.bind]
    rfl
  | printed loads contract unnamed =>
    simp only [loads.outcome_contract contract, deliver, target, unnamed]
    rfl
  | unwritable loads contract named written =>
    simp only [loads.outcome_contract contract, deliver, target, named]
    simp only [Outcome.text, written, bind, StateT.bind]
    rfl
  | saved loads contract named written =>
    simp only [loads.outcome_contract contract, deliver, target, named]
    simp only [Outcome.text, written, bind, StateT.bind]
    rfl

/-- A run that fails leaves the state as it is. -/
theorem Ends.after_eq {failure : Failure} (lawful : host.Lawful)
    (ends : job.Ends host s (.error failure) after) : after = s := by
  cases ends with
  | unwritable loads contract named written => exact lawful.refused_keeps written
  | _ => rfl

/-- What a run without a preview finds wrong with the file, one with a preview finds, too. -/
theorem Ends.preview {failure : Failure} (ends : job.Ends host s (.error failure) after)
    (contract : job.preview = none) (output preview : Option String)
    (unwritten : ∀ path error, failure ≠ .unwritable path error) :
    { job with output, preview }.Ends host s (.error failure) s := by
  cases ends with
  | unreadable read => exact .unreadable read
  | unparsable read parsed => exact .unparsable read parsed
  | badTemplate read parsed refused => exact .badTemplate read parsed refused
  | badTokenId loads asked number => simp [contract] at asked
  | unwritable => exact absurd rfl (unwritten _ _)

end Job

/-- What a command leaves after a run. -/
def Result.ofRun : Except Failure String → Result
  | .ok text => ⟨0, text, none⟩
  | .error failure => ⟨1, "", some failure⟩

section

variable {host : Host (StateM σ)} {reads : List String → Request} {arguments : List String}
  {job : Job} {s : σ}

/-- Of the arguments, a command needs no more than the job they ask for. -/
theorem executeBy_of_ends (lawful : host.Lawful) (asked : reads arguments = .work job)
    {result : Except Failure String} {after : σ} (ends : job.Ends host s result after) :
    executeBy reads host arguments s = (.ofRun result, after) := by
  unfold executeBy
  rw [asked]
  simp only [bind, StateT.bind, ends.run_eq lawful]
  cases result <;> rfl

/-- Every job can be asked for on the command line, and the command then ends as its run does. -/
theorem execute_arguments (lawful : host.Lawful) {result : Except Failure String} {after : σ}
    (ends : job.Ends host s result after) :
    execute host job.arguments s = (.ofRun result, after) :=
  executeBy_of_ends lawful job.ofArguments_arguments ends

/-- The failure of a command is the one at which its run ends. -/
theorem failure_iff (lawful : host.Lawful) (asked : reads arguments = .work job) (s : σ)
    (failure : Failure) :
    (executeBy reads host arguments s).1.failure = some failure ↔
      job.Ends host s (.error failure) s := by
  obtain ⟨ended, after, ends⟩ := job.exists_ends host s
  constructor
  · intro failed
    rw [executeBy_of_ends lawful asked ends] at failed
    cases ended with
    | ok text => cases failed
    | error found =>
      cases failed
      exact ends.after_eq lawful ▸ ends
  · intro fails
    rw [executeBy_of_ends lawful asked fails]
    rfl

/-- The file that a command writes holds what the command prints if it is not told a file. -/
theorem saved_of_named (lawful : host.Lawful) (asked : reads arguments = .work job) {path : String}
    (named : job.output = some path) (contract : job.preview = none)
    (succeeds : (executeBy reads host arguments s).1.failure = none) {plain : List String}
    (unnamed : reads plain = .work { job with output := none }) :
    ∃ text, executeBy reads host plain s = (⟨0, text, none⟩, s) ∧
      host.Saved s path text (executeBy reads host arguments s).2 := by
  obtain ⟨ended, after, ends⟩ := job.exists_ends host s
  rw [executeBy_of_ends lawful asked ends] at succeeds ⊢
  cases ends with
  | address loads asked => simp [contract] at asked
  | printed loads _ unnamed => simp [named] at unnamed
  | @saved settings path' _ loads _ named' written =>
    have same : path' = path := Option.some.inj (named'.symm.trans named)
    subst same
    have prints : Job.Ends { job with output := none } host s (.ok settings.source) s :=
      .printed ⟨loads.parsed, loads.accepted⟩ contract rfl
    exact ⟨settings.source, executeBy_of_ends lawful unnamed prints, written,
      lawful.written_reads written⟩
  | _ => cases succeeds

/-- A preview is the address that the template shows, on a line of its own. -/
theorem printed_of_preview (lawful : host.Lawful) (asked : reads arguments = .work job)
    {preview : String} (previews : job.preview = some preview) :
    (executeBy reads host arguments s).2 = s ∧
      ((executeBy reads host arguments s).1.failure = none →
        ∃ settings tokenId uri, job.Loads host s settings ∧ readTokenId preview = .ok tokenId ∧
          Template.uri settings.tokenUri tokenId settings.parameterNames = .ok uri ∧
          (executeBy reads host arguments s).1.printed = uri ++ "\n") := by
  obtain ⟨ended, after, ends⟩ := job.exists_ends host s
  rw [executeBy_of_ends lawful asked ends]
  cases ends with
  | @address settings preview' uri tokenId loads previews' number shown =>
    have same : preview' = preview := Option.some.inj (previews'.symm.trans previews)
    subst same
    exact ⟨rfl, fun _ => ⟨settings, tokenId, uri, loads, number, shown, rfl⟩⟩
  | printed loads contract => simp [previews] at contract
  | unwritable loads contract => simp [previews] at contract
  | saved loads contract => simp [previews] at contract
  | _ => exact ⟨rfl, nofun⟩

/-- On a host that keeps to the laws, whatever its state is and however the arguments are read, a
command that is asked for a job fails at the first stage that fails, and then it prints nothing and
leaves the state as it is. If it succeeds with a file, the file holds what the same command prints
without one, put there by one write. With a preview it writes nothing, it fails whenever the file of
the settings is at fault without a preview, and unless it fails it prints the address on a line. -/
theorem execute_work (lawful : host.Lawful) (asked : reads arguments = .work job) (s : σ)
    {result : Result} {after : σ} (left : executeBy reads host arguments s = (result, after)) :
    (∀ failure, result.failure = some failure ↔ job.Ends host s (.error failure) s) ∧
      (result.failure ≠ none → result.exit = 1 ∧ result.printed = "" ∧ after = s) ∧
      (result.failure = none → result.exit = 0) ∧
      (∀ path, job.output = some path → job.preview = none → result.failure = none →
        ∀ plain, reads plain = .work { job with output := none } →
          ∃ text, executeBy reads host plain s = (⟨0, text, none⟩, s) ∧
            host.Saved s path text after) ∧
      (∀ preview, job.preview = some preview →
        after = s ∧
        (∀ plain output failure,
          reads plain = .work { job with output, preview := none } →
          (executeBy reads host plain s).1.failure = some failure →
          (∀ path error, failure ≠ .unwritable path error) → result.failure = some failure) ∧
        (result.failure = none →
          ∃ settings tokenId uri, job.Loads host s settings ∧ readTokenId preview = .ok tokenId ∧
            Template.uri settings.tokenUri tokenId settings.parameterNames = .ok uri ∧
            result.printed = uri ++ "\n")) := by
  have fails := failure_iff lawful asked s
  obtain ⟨ended, after', ends⟩ := job.exists_ends host s
  have spelled := executeBy_of_ends lawful asked ends
  rw [left] at spelled fails
  obtain ⟨rfl, rfl⟩ := Prod.mk.inj spelled
  refine ⟨fails, fun failed => ?_, fun succeeds => ?_, fun path named contract succeeds plain
    unnamed => ?_, fun preview previews => ?_⟩
  · cases ended with
    | ok text => exact absurd rfl failed
    | error failure => exact ⟨rfl, rfl, ends.after_eq lawful⟩
  · cases ended with
    | ok text => rfl
    | error failure => cases succeeds
  · have saved := saved_of_named (s := s) lawful asked named contract (by rw [left]; exact succeeds)
      unnamed
    rwa [left] at saved
  · obtain ⟨kept, prints⟩ := printed_of_preview (s := s) lawful asked previews
    rw [left] at kept prints
    refine ⟨kept, fun plain output failure contract failed unwritten => ?_, prints⟩
    have found := (failure_iff lawful contract s failure).1 failed
    exact (fails failure).2 (found.preview rfl job.output job.preview unwritten)

end

/-- A directory with a file of settings in which nothing is set. -/
def sampleDirectory : Directory := ⟨[("c.json", "\x7b\x7d".toUTF8)]⟩

theorem execute_sampleDirectory :
    Request.ofArguments ["-o", "out.sol", "c.json"] = .work ⟨"c.json", some "out.sol", none, 0⟩ ∧
      ∃ text after,
        execute Host.inMemory ["-o", "out.sol", "c.json"] sampleDirectory =
          (⟨0, "Successfully generated out.sol\n", none⟩, after) ∧
        execute Host.inMemory ["c.json"] sampleDirectory = (⟨0, text, none⟩, sampleDirectory) ∧
        sampleDirectory.Saved "out.sol" text after ∧
        execute Host.inMemory ["--preview", "7", "c.json"] sampleDirectory =
          (⟨0, "https://example.com/7\n", none⟩, sampleDirectory) := by
  have asked : Request.ofArguments ["-o", "out.sol", "c.json"] =
      .work ⟨"c.json", some "out.sol", none, 0⟩ := by decide +kernel
  have unnamed : Request.ofArguments ["c.json"] = .work ⟨"c.json", none, none, 0⟩ := by
    decide +kernel
  have previews : Request.ofArguments ["--preview", "7", "c.json"] =
      .work ⟨"c.json", none, some "7", 0⟩ := by decide +kernel
  have read : sampleDirectory.read "c.json" = .ok "\x7b\x7d" := rfl
  have parsed : Settings.parse "\x7b\x7d" = .ok .blank := rfl
  have accepted : Template.parseUri Settings.blank.tokenUri =
      .ok [.text "https://example.com/", .slot "tokenId"] := rfl
  have place : sampleDirectory.place "out.sol" = .ok (.file "out.sol" false) := rfl
  obtain ⟨after, written⟩ :
      ∃ after, sampleDirectory.write "out.sol" Settings.blank.source = .ok after := by
    rw [Directory.write, place]
    exact ⟨_, rfl⟩
  have loads (output preview : Option String) :
      Job.Loads ⟨"c.json", output, preview, 0⟩ Host.inMemory sampleDirectory .blank :=
    ⟨⟨_, read, parsed⟩, _, accepted⟩
  have saves := Host.write_inMemory_of_ok written
  have left := executeBy_of_ends Host.inMemory_lawful asked (.saved (loads _ _) rfl rfl saves)
  have shown := executeBy_of_ends Host.inMemory_lawful previews (.address (loads _ _) rfl rfl rfl)
  obtain ⟨-, -, -, saved, -⟩ :=
    execute_work Host.inMemory_lawful asked sampleDirectory left
  obtain ⟨text, prints, held⟩ := saved "out.sol" rfl rfl rfl ["c.json"] unnamed
  exact ⟨asked, text, after, left, prints, held.of_inMemory, shown⟩

end Mintage.Command
