import ComboTree.CommandLine.Run

/-!
# The program

Collects what a run reads of its machine, and writes what the run has written.
-/

namespace ComboTree

/-- What reading a file has come to. -/
def entryOfError : IO.Error → FileEntry
  | .noFileOrDirectory .. => .absent "No such file or directory (os error 2)"
  | .inappropriateType .. => .unreadable "Is a directory (os error 21)"
  | .permissionDenied .. => .unreadable "Permission denied (os error 13)"
  | error => .unreadable (toString error)

/-- What a file name leads to on this machine. -/
def readEntry (file : String) : IO FileEntry := do
  try
    return .contents (← IO.FS.readFile file)
  catch error =>
    return entryOfError error

/-- The variables that the program looks at, for a machine that does not list its environment. -/
def knownVariables : List String :=
  [ "HOME", "XDG_CONFIG_HOME", "TREEPATH_MAX_ALTERNATIVES", "TREEPATH_MAX_NODES",
    "TREEPATH_SYNONYM_RULE", "TREEPATH_VALIDATE_UNIFORM_LEVELS", "TREEPATH_STRICT_TOKENS" ]

/-- The variables of the environment with their values. -/
def readEnvironment : IO (List (String × String)) := do
  try
    let listed := Text.pieces '\x00' (← IO.FS.readFile "/proc/self/environ")
    return listed.filterMap fun entry =>
      match Text.pieces '=' entry with
      | name :: value@(_ :: _) => some (name, Text.joined '=' value)
      | _ => none
  catch _ =>
    knownVariables.filterMapM fun name => do
      return (← IO.getEnv name).map (name, ·)

/-- The machine as far as a run with these arguments looks at it. -/
def readHost (arguments : List String) : IO Host := do
  let environment ← readEnvironment
  let unread : Host := { environment, file := fun _ => .absent "" }
  let named := (Invocation.read arguments).toOption.bind (·.settingsFile)
  let files := unread.globalSettingsFile?.toList ++ named.toList
  let entries ← files.mapM fun file => do
    return (file, ← readEntry file)
  return { unread with file := fun file => (entries.lookup file).getD (unread.file file) }

end ComboTree

open ComboTree in
/-- Runs the program. -/
def main (arguments : List String) : IO UInt32 := do
  let outcome := runProgram (← readHost arguments) arguments
  IO.eprint outcome.transcript.errors
  IO.print outcome.transcript.output
  return outcome.exitCode.toUInt32
