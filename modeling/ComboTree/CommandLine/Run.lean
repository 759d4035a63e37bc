import ComboTree.CommandLine.Command
import ComboTree.CommandLine.Failure
import ComboTree.Operations
import ComboTree.Settings.Load

/-!
# Runs of the program

A `Run` writes lines to standard output and standard error and ends well or with a failure.  What
was written before a failure stays written; that a failing command has written nothing is a
property of the commands.

A transcript holds what the program itself writes.  Left out of it are the log lines that `-d` turns
on (the verbosity is read, and one that is too high is noticed), colours, and the reason that a TOML
reader gives for a malformed file, which would follow the file's name.  None of them changes what
is written to standard output, the exit code, or that a failure is reported once.

`Shell.script`, `usageText` and `CommandLine.Rejection.message` stand in for longer texts that a
library composes from the command line's specification.  Which stream such a text goes to, and the
exit code, are those of the program; its wording is not.

* `Invocation.execute`  a command line that has been read
* `runProgram`  the whole program, from its arguments to its exit code
-/

namespace ComboTree

open CommandLine (Rejection)

/-- What has been written to standard output and to standard error. -/
structure Transcript where
  output : String := ""
  errors : String := ""
deriving DecidableEq, Repr, Inhabited

/-- A part of a run: it writes, and may end the run with a failure. -/
abbrev Run := ExceptT Failure (StateM Transcript)

namespace Run

/-- Writes a text to standard output. -/
def write (text : String) : Run Unit :=
  modify fun t => { t with output := t.output ++ text }

/-- Writes a line to standard output. -/
def writeLine (line : String) : Run Unit :=
  write (line ++ "\n")

/-- Writes a line to standard error. -/
def warn (line : String) : Run Unit :=
  modify fun t => { t with errors := t.errors ++ line ++ "\n" }

/-- The result of an operation on trees. -/
def ofTree {α : Type} : Except Fault α → Run α
  | .ok a => return a
  | .error fault => throw (.tree fault)

/-- The result of an operation on settings. -/
def ofSettings {α : Type} : Except SettingsFault α → Run α
  | .ok a => return a
  | .error fault => throw (.settings fault)

end Run

open Run

/-- Shows the settings in effect. -/
def Settings.display (s : Settings) : Run Unit := do
  writeLine "Effective settings"
  match s.toText? with
  | some text => write text
  | none => throw (.settings .unwritable)

/-- Shows the name of the global settings file, with a warning if it is not there. -/
def Host.showSettingsFile (host : Host) : Run Unit :=
  match host.globalSettingsFile? with
  | some file => do
    if !(host.file file).isPresent then
      warn s!"Warning: {file} does not exist"
    writeLine file
  | none => throw (.arguments "no home directory to locate the global config")

/-- A completion script that offers the names of the commands, in place of a generated one that knows
the options too. -/
def Shell.script (shell : Shell) : String :=
  let names := " ".intercalate (programSpec.subcommands.map (·.name) ++ ["help"])
  match shell with
  | bash => s!"complete -W '{names}' {programName}"
  | elvish => s!"set edit:completion:arg-completer[{programName}] = \x7b|@_| put {names} \x7d"
  | fish => s!"complete -c {programName} -f -a '{names}'"
  | powershell =>
    s!"Register-ArgumentCompleter -Native -CommandName {programName} -ScriptBlock " ++
      s!"\x7b -split '{names}' \x7d"
  | zsh => s!"#compdef {programName}\ncompadd {names}"

namespace Command

/-- Carries out a command under the given settings. -/
def execute (host : Host) (s : Settings) : Command → Run Unit
  | expand path => do writeLine (← ofTree (s.expand path)).render
  | collapse path => do writeLine (← ofTree (s.collapse path))
  | combinations tokens => do (← ofTree (s.combinations tokens)).forM writeLine
  | leaves path => do (← ofTree (s.leaves path)).forM writeLine
  | synonym path reference => do
    let found ← ofTree (s.synonym path reference)
    writeLine (found.getD (String.singleton PathStructure.levelSeparator))
  | insert base paths mode => do writeLine (← ofTree (s.insert mode base paths)).render
  | showSettings => s.display
  | showSettingsFile => host.showSettingsFile
  | completion shell => writeLine shell.script

/-- Whether a command depends on the settings. -/
def needsSettings : Command → Bool
  | completion _ => false
  | _ => true

end Command

/-- How a run ended and what it wrote. -/
structure Outcome where
  exitCode : Nat
  transcript : Transcript
deriving DecidableEq, Repr, Inhabited

/-- The outcome of a run; a failure is shown as the last line on standard error. -/
def Run.outcome (run : Run Unit) (written : Transcript) : Outcome :=
  match run written with
  | (.ok (), t) => { exitCode := ExitCode.success.toNat, transcript := t }
  | (.error failure, t) =>
    { exitCode := failure.exitCode.toNat
      transcript := { t with errors := t.errors ++ s!"error: {failure.message}\n" } }

namespace Invocation

/-- Loads the settings, if the command needs them, and carries out the command. -/
def run (invocation : Invocation) (host : Host) : Run Unit :=
  match invocation.command with
  | none => throw (.usage "no command given, see --help")
  | some command => do
    let settings ←
      if command.needsSettings then ofSettings (Settings.load host invocation.settingsFile)
      else pure {}
    command.execute host settings

/-- The outcome of a command line that has been read. -/
def execute (invocation : Invocation) (host : Host) : Outcome :=
  (invocation.run host).outcome {}

end Invocation

/-! ## The whole program -/

/-- The highest verbosity that makes a difference. -/
def greatestVerbosity : Nat := 3

/-- The notice for a verbosity that is higher. -/
def verbosityNotice : String := "Don't be crazy, max is -d -d -d\n"

/-- A short account of the command line, in place of the full help text. -/
def usageText : String :=
  let names := "\n  ".intercalate (programSpec.subcommands.map (·.name) ++ ["help"])
  s!"Usage: {programName} [OPTIONS] [COMMAND]\n\nCommands:\n  {names}\n"

namespace CommandLine.Rejection

/-- What the user is told when the arguments are not acted on; the wording is this library's own. -/
def message : Rejection → String
  | unknownArgument argument => s!"error: unexpected argument '{argument}' found\n"
  | missingArgument name => s!"error: the value {name} was not provided\n"
  | unknownSubcommand argument => s!"error: unrecognized subcommand '{argument}'\n"
  | missingSubcommand => "error: a subcommand is needed but none was given\n"
  | invalidValue name => s!"error: the value for {name} is missing or not possible\n"
  | unexpectedValue option => s!"error: --{option} takes no value\n"
  | repeatedOption option => s!"error: --{option} was given more than once\n"
  | helpForMissingSubcommand | help => usageText
  | version command => "-".intercalate command ++ s!" {programVersion}\n"

/-- The outcome of a run whose arguments are not acted on: what was asked for goes to standard
output, what is wrong to standard error. -/
def outcome (rejection : Rejection) : Outcome :=
  match rejection with
  | help | version _ => { exitCode := 0, transcript := { output := rejection.message } }
  | _ => { exitCode := 2, transcript := { errors := rejection.message } }

end CommandLine.Rejection

/-- The outcome of the program on a machine for given arguments. -/
def runProgram (host : Host) (arguments : List String) : Outcome :=
  match Invocation.read arguments with
  | .error rejection => rejection.outcome
  | .ok invocation =>
    let notice := if greatestVerbosity < invocation.verbosity then verbosityNotice else ""
    (invocation.run host).outcome { errors := notice }

end ComboTree
