import ComboTree.CommandLine.Run
import ComboTree.Proofs.Counts

/-!
# A failing run has printed nothing

Every command first computes what it has to say, which may fail, and then says it, which may not.
Showing the settings is the exception: its heading is printed before the settings are written out.
That a heading without settings is never seen is a property of the settings: they have been loaded,
and loaded settings can be written.

A run is described by what it does to any transcript: it `Prints` certain texts, or it `Fails` and
leaves the transcript alone.

## Key results

- `Prints.andThen`, `prints_forM_writeLine`: what is printed in steps
- `Command.settled`: each command prints or fails, under settings that can be written
- `Invocation.settled`: so does each run
- `Invocation.fails_silently`: the outcomes of the program
-/

namespace ComboTree

/-- The code that a run ends with for each kind of failure. -/
inductive Failure.EndsWith : Failure → Nat → Prop where
  | usage (reason : String) : EndsWith (.usage reason) 64
  | arguments (reason : String) : EndsWith (.arguments reason) 64
  | malformedPath (path : String) (problem : PathProblem) :
    EndsWith (.tree (.malformedPath path problem)) 65
  | rootAlternatives (path : String) : EndsWith (.tree (.rootAlternatives path)) 65
  | noLevels : EndsWith (.tree .noLevels) 65
  | parentNotFound (path component : String) : EndsWith (.tree (.parentNotFound path component)) 66
  | nodeNotFound (path : String) : EndsWith (.tree (.nodeNotFound path)) 66
  | tooManyAlternatives (count limit : Nat) :
    EndsWith (.tree (.tooManyAlternatives count limit)) 70
  | tooManyNodes (count limit : Nat) : EndsWith (.tree (.tooManyNodes count limit)) 70
  | unevenLevel (depth : Nat) (path : String) : EndsWith (.tree (.unevenLevel depth path)) 70
  | settings (fault : SettingsFault) : EndsWith (.settings fault) 78

namespace Failure

variable {failure : Failure} {code : Nat}

/-- No failure ends a run as if all were well. -/
theorem EndsWith.ne_zero (h : failure.EndsWith code) : code ≠ 0 := by
  cases h <;> decide

/-- The exit codes are those that the kinds of failure are said to have. -/
theorem endsWith_exitCode (failure : Failure) : failure.EndsWith failure.exitCode.toNat := by
  cases failure with
  | tree fault => cases fault <;> constructor
  | settings | arguments | usage => constructor

end Failure

/-! ## What runs do -/

namespace Run

/-- The run writes these texts and ends well, whatever has been written before. -/
def Prints (run : Run Unit) (output errors : String) : Prop :=
  ∀ before : Transcript, run before =
    (.ok (), { output := before.output ++ output, errors := before.errors ++ errors })

/-- The run fails and leaves what has been written as it was. -/
def Fails (run : Run Unit) (failure : Failure) : Prop :=
  ∀ before : Transcript, run before = (.error failure, before)

variable {α : Type} {output output' errors errors' : String}

/-- A text goes to standard output as it is. -/
theorem prints_write (text : String) : Prints (write text) text "" := by
  intro before
  show (Except.ok (), { before with output := before.output ++ text }) = _
  simp

/-- A line is a text with its end. -/
theorem prints_writeLine (line : String) : Prints (writeLine line) (line ++ "\n") "" :=
  prints_write (line ++ "\n")

/-- A warning is a line on standard error. -/
theorem prints_warn (line : String) : Prints (warn line) "" (line ++ "\n") := by
  intro before
  show (Except.ok (), { before with errors := before.errors ++ line ++ "\n" }) = _
  simp [String.append_assoc]

/-- Doing nothing prints nothing. -/
theorem prints_pure : Prints (pure ()) "" "" := by
  intro before
  show (Except.ok (), before) = _
  simp

/-- A run goes on with the value of its first part, and with what that has written. -/
theorem bind_of_ok {first : Run α} {next : α → Run Unit} {a : α} {before after : Transcript}
    (h : first before = (.ok a, after)) : (first >>= next) before = next a after := by
  show (StateT.bind first (ExceptT.bindCont next)) before = _
  unfold StateT.bind
  rw [h]
  rfl

/-- What two runs print, one after the other. -/
theorem Prints.andThen {first second : Run Unit} (h : Prints first output errors)
    (hsecond : Prints second output' errors') :
    Prints (first >>= fun _ => second) (output ++ output') (errors ++ errors') := by
  intro before
  rw [bind_of_ok (h before), hsecond]
  simp [String.append_assoc]

/-- Lines are printed in order. -/
theorem prints_forM_writeLine (lines : List String) :
    Prints (lines.forM writeLine) (String.join (lines.map (· ++ "\n"))) "" := by
  induction lines with
  | nil => exact prints_pure
  | cons line lines ih =>
    have h := (prints_writeLine line).andThen ih
    simpa [String.join_cons] using h

/-- Failing leaves the transcript alone. -/
theorem fails_throw (failure : Failure) : Fails (throw failure) failure := fun _ => rfl

/-- What a run on `host` may say on standard error and still end well: nothing, or that the global
settings file is not there. -/
inductive Warning (host : Host) : String → Prop where
  | none : Warning host ""
  | missing {file : String} (hfile : host.globalSettingsFile? = some file)
      (habsent : (host.file file).isPresent = false) :
      Warning host (s!"Warning: {file} does not exist" ++ "\n")

/-- The run prints and ends well, or fails before it has printed anything; which of the two does not
depend on what has been written before. -/
inductive Settled (host : Host) (run : Run Unit) : Prop where
  | prints {output errors : String} (h : Prints run output errors) (hwarning : Warning host errors)
  | fails {failure : Failure} (h : Fails run failure)

variable {host : Host}

/-- A result that is computed before anything is said. -/
theorem Settled.of_ofTree {x : Except Fault α} {next : α → Run Unit}
    (h : ∀ a, x = .ok a → Settled host (next a)) : Settled host (ofTree x >>= next) := by
  cases x with
  | ok a => exact h a rfl
  -- nothing has been said when the result turns out to be a fault
  | error fault => exact .fails (fails_throw (.tree fault))

/-- As `Settled.of_ofTree`, with a fault of the settings. -/
theorem Settled.of_ofSettings {x : Except SettingsFault α} {next : α → Run Unit}
    (h : ∀ a, x = .ok a → Settled host (next a)) : Settled host (ofSettings x >>= next) := by
  cases x with
  | ok a => exact h a rfl
  | error fault => exact .fails (fails_throw (.settings fault))

/-- One line is printed without a warning. -/
theorem Settled.writeLine (line : String) : Settled host (writeLine line) :=
  .prints (prints_writeLine line) .none

/-- So are several. -/
theorem Settled.forM_writeLine (lines : List String) : Settled host (lines.forM Run.writeLine) :=
  .prints (prints_forM_writeLine lines) .none

end Run

open Run

/-! ## Commands -/

/-- Settings are shown below a heading, if they can be written. -/
theorem Settings.display_prints {s : Settings} {text : String} (h : s.toText? = some text) :
    Prints s.display ("Effective settings\n" ++ text) "" := by
  have hprints := (prints_writeLine "Effective settings").andThen (prints_write text)
  unfold display
  rw [h]
  exact hprints

/-- The place of the global settings file is printed, with a warning where there is no such file. -/
theorem Host.showSettingsFile_settled (host : Host) : Settled host host.showSettingsFile := by
  unfold showSettingsFile
  split
  · rename_i file hfile
    cases hpresent : (host.file file).isPresent with
    | true => exact .writeLine file
    | false =>
      have hprints := (prints_warn s!"Warning: {file} does not exist").andThen (prints_writeLine file)
      -- the warning goes to standard error, so the output is the line alone
      rw [String.append_empty] at hprints
      exact .prints hprints (.missing hfile hpresent)
  · exact .fails (fails_throw _)

/-- Each command prints or fails.  Only the one that shows the settings prints before it can fail,
and it does not fail for settings that can be written. -/
theorem Command.settled (command : Command) (host : Host) {s : Settings} (h : s.Writable) :
    Settled host (command.execute host s) := by
  -- all but two commands compute a result and then print it
  cases command with
  | expand path => exact .of_ofTree fun t _ => .writeLine t.render
  | collapse path => exact .of_ofTree fun text _ => .writeLine text
  | combinations tokens => exact .of_ofTree fun labels _ => .forM_writeLine labels
  | leaves path => exact .of_ofTree fun paths _ => .forM_writeLine paths
  | synonym path reference => exact .of_ofTree fun found _ => .writeLine _
  | insert base paths mode => exact .of_ofTree fun t _ => .writeLine t.render
  | showSettings =>
    -- the heading is printed first, so what follows it must not fail
    obtain ⟨text, htext⟩ := Option.isSome_iff_exists.1 (Settings.toText?_isSome_iff.2 h)
    exact .prints (Settings.display_prints htext) .none
  | showSettingsFile => exact host.showSettingsFile_settled
  | completion shell => exact .writeLine shell.script

/-! ## The program -/

/-- A run prints or fails, for settings that have been loaded or are not needed. -/
theorem Invocation.settled (invocation : Invocation) (host : Host) :
    Settled host (invocation.run host) := by
  unfold Invocation.run
  -- no command at all is a failure of the command line
  split
  · exact .fails (fails_throw _)
  · rename_i command hcommand
    split
    · exact .of_ofSettings fun s hload => command.settled host (.of_load hload)
    · -- the command does not look at the settings, so the defaults will do, which can be written
      exact command.settled host ⟨by decide, by decide⟩

namespace Run

variable {host : Host} {run : Run Unit} {before after : Transcript}

/-- A run that prints ends with code 0 and adds its texts to what was there. -/
theorem Prints.outcome {output errors : String} (h : Prints run output errors)
    (before : Transcript) : run.outcome before =
      { exitCode := 0
        transcript := { output := before.output ++ output, errors := before.errors ++ errors } } := by
  unfold Run.outcome
  rw [h before]
  rfl

/-- A run that fails ends with the code of its failure and adds one message. -/
theorem Fails.outcome {failure : Failure} (h : Fails run failure) (before : Transcript) :
    run.outcome before =
      { exitCode := failure.exitCode.toNat
        transcript :=
          { before with errors := before.errors ++ s!"error: {failure.message}\n" } } := by
  unfold Run.outcome
  rw [h before]

/-- A run that has failed had printed nothing. -/
theorem Settled.fails_of_eq_error {failure : Failure} (h : Settled host run)
    (hrun : run before = (.error failure, after)) : after = before ∧ Fails run failure := by
  cases h with
  | prints h =>
    rw [h before] at hrun
    exact nomatch congrArg Prod.fst hrun
  | fails h =>
    rw [h before] at hrun
    obtain ⟨hfailure, hafter⟩ := Prod.mk.inj hrun
    exact ⟨hafter.symm, Except.error.inj hfailure ▸ h⟩

/-- A run that has ended well has printed certain texts, and has warned of nothing else. -/
theorem Settled.prints_of_eq_ok (h : Settled host run) (hrun : run before = (.ok (), after)) :
    ∃ output errors, Prints run output errors ∧ Warning host errors ∧
      after = { output := before.output ++ output, errors := before.errors ++ errors } := by
  cases h with
  | @prints output errors h hwarning =>
    rw [h before] at hrun
    exact ⟨output, errors, h, hwarning, (congrArg Prod.snd hrun).symm⟩
  | fails h =>
    rw [h before] at hrun
    exact nomatch congrArg Prod.fst hrun

end Run

/-- A run that fails has printed nothing: its whole outcome is the exit code of the failure and a
message on standard error.  A run that ends well has the exit code 0, what it printed, and no
message but the warning that the global settings file is not there.  The program is such a run. -/
theorem Invocation.fails_silently (invocation : Invocation) (host : Host) (before : Transcript) :
    (∀ failure after, invocation.run host before = (.error failure, after) →
      after = before ∧ ∃ code, failure.EndsWith code ∧ code ≠ 0 ∧
        (invocation.run host).outcome before =
          { exitCode := code
            transcript :=
              { before with errors := before.errors ++ s!"error: {failure.message}\n" } }) ∧
    (∀ after, invocation.run host before = (.ok (), after) →
      ∃ output errors, Warning host errors ∧
        after = { output := before.output ++ output, errors := before.errors ++ errors } ∧
        (invocation.run host).outcome before = { exitCode := 0, transcript := after }) ∧
    (∀ arguments, Invocation.read arguments = .ok invocation →
      runProgram host arguments = (invocation.run host).outcome
        { errors := if greatestVerbosity < invocation.verbosity then verbosityNotice else "" }) := by
  have hsettled := invocation.settled host
  -- a run that failed, one that ended well, and the program's own run
  refine ⟨fun failure after hrun => ?_, fun after hrun => ?_, fun arguments hread => ?_⟩
  · obtain ⟨hafter, hfails⟩ := hsettled.fails_of_eq_error hrun
    have hcode := failure.endsWith_exitCode
    exact ⟨hafter, failure.exitCode.toNat, hcode, hcode.ne_zero, hfails.outcome before⟩
  · obtain ⟨output, errors, hprints, hwarning, rfl⟩ := hsettled.prints_of_eq_ok hrun
    exact ⟨output, errors, hwarning, rfl, hprints.outcome before⟩
  · unfold runProgram
    rw [hread]

/-- A path structure without its leading separator ends the run with 65; asking for a global file
that is not there is no failure. -/
theorem Invocation.fails_silently_malformed :
    let host : Host := {
      environment := [("HOME", "/home/me")]
      file := fun _ => .absent "No such file or directory (os error 2)" }
    let malformed : Invocation := { command := some (.expand "a/b") }
    let missing : Invocation := { command := some .showSettingsFile }
    Invocation.read ["expand", "a/b"] = .ok malformed ∧ runProgram host ["expand", "a/b"] =
      { exitCode := 65
        transcript :=
          { errors := "error: invalid path structure 'a/b': must start with '/'\n" } } ∧
    (missing.run host).outcome {} =
      { exitCode := 0
        transcript :=
          { output := "/home/me/.config/treepath/treepath.toml\n"
            errors := "Warning: /home/me/.config/treepath/treepath.toml does not exist\n" } } := by
  intro host malformed missing
  obtain ⟨hfails, -, hprogram⟩ := malformed.fails_silently host {}
  obtain ⟨-, hends, -⟩ := missing.fails_silently host {}
  have hread : Invocation.read ["expand", "a/b"] = .ok malformed := by decide +kernel
  have hrun : malformed.run host {} =
      (.error (.tree (.malformedPath "a/b" .noLeadingSeparator)), {}) := rfl
  -- the kind of failure fixes the code
  obtain ⟨-, code, hcode, -, houtcome⟩ := hfails _ _ hrun
  cases hcode
  obtain ⟨_, _, -, -, hmissing⟩ := hends ⟨_, _⟩ rfl
  exact ⟨hread, (hprogram _ hread).trans houtcome, hmissing⟩

end ComboTree
