import ComboTree.CommandLine.Grammar
import ComboTree.Expansion

/-!
# The commands of the program

`programSpec` describes the command line, and `Invocation.read` turns arguments into what they ask
for.  The options for verbosity and for a settings file can be given to any command or subcommand;
where several levels have one, the innermost counts.
-/

namespace ComboTree

open CommandLine (CommandSpec OptionSpec Slot Given Rejection)

/-- The shells for which completions can be generated. -/
inductive Shell where
  | bash
  | elvish
  | fish
  | powershell
  | zsh
deriving DecidableEq, Repr, Inhabited

namespace Shell

/-- The name of a shell on the command line. -/
def name : Shell → String
  | bash => "bash"
  | elvish => "elvish"
  | fish => "fish"
  | powershell => "powershell"
  | zsh => "zsh"

/-- The shell with this name. -/
def ofName? (text : String) : Option Shell :=
  [bash, elvish, fish, powershell, zsh].find? fun shell => shell.name = text

end Shell

/-- What the program can be asked to do. -/
inductive Command where
  /-- Show the tree of a path structure. -/
  | expand (path : String)
  /-- Expand a path structure and collapse it again. -/
  | collapse (path : String)
  /-- List the combinations of tokens. -/
  | combinations (tokens : List String)
  /-- List the paths of the leaves of the tree of a path structure. -/
  | leaves (path : String)
  /-- Find a synonym of the node at a path in the tree of a path structure. -/
  | synonym (path reference : String)
  /-- Show the tree of a path structure after insertions. -/
  | insert (base : String) (paths : List String) (mode : InsertMode)
  /-- Show the settings in effect. -/
  | showSettings
  /-- Show where the global settings file is. -/
  | showSettingsFile
  /-- Generate completions for a shell. -/
  | completion (shell : Shell)
deriving DecidableEq, Repr, Inhabited

/-! ## Description -/

/-- The name of the program. -/
def programName : String := "treepath"

/-- The version of the program. -/
def programVersion : String := "0.1.0"

/-- The options of every command. -/
def commonOptions : List OptionSpec :=
  [ { long := "debug", short := some 'd', effect := .count },
    { long := "config", short := some 'c', effect := .value (· ≠ "") },
    { long := "help", short := some 'h', effect := .help },
    { long := "version", short := some 'V', effect := .version } ]

/-- A command with the given slots and the common options. -/
def simpleCommand (name : String) (slots : List Slot) : CommandSpec :=
  { name, options := commonOptions, slots }

/-- The command line of the program. -/
def programSpec : CommandSpec where
  name := programName
  options := commonOptions
  subcommands :=
    [ simpleCommand "expand" [{ name := "path" }],
      simpleCommand "collapse" [{ name := "path" }],
      simpleCommand "combinations" [{ name := "tokens", many := true }],
      simpleCommand "leaves" [{ name := "path" }],
      simpleCommand "synonym" [{ name := "path" }, { name := "reference" }],
      { name := "insert"
        options := commonOptions ++ [{ long := "combine", effect := .flag }]
        slots := [{ name := "base" }, { name := "paths", many := true }] },
      { name := "config"
        options := commonOptions
        needsSubcommand := true
        subcommands := [simpleCommand "show" [], simpleCommand "path" []] },
      simpleCommand "completion"
        [{ name := "shell", accepts := fun text => (Shell.ofName? text).isSome }] ]

/-! ## Meaning -/

/-- The command that the levels below the outermost one name. -/
def Command.ofGiven? : List Given → Option Command
  | [given] =>
    match given.command with
    | "expand" => some (.expand (given.valueOf "path"))
    | "collapse" => some (.collapse (given.valueOf "path"))
    | "combinations" => some (.combinations (given.valuesOf "tokens"))
    | "leaves" => some (.leaves (given.valueOf "path"))
    | "synonym" => some (.synonym (given.valueOf "path") (given.valueOf "reference"))
    | "insert" =>
      let mode := if 0 < given.count "combine" then InsertMode.combination else .literal
      some (.insert (given.valueOf "base") (given.valuesOf "paths") mode)
    | "completion" => (Shell.ofName? (given.valueOf "shell")).map .completion
    | _ => none
  | [_, given] =>
    match given.command with
    | "show" => some .showSettings
    | "path" => some .showSettingsFile
    | _ => none
  | _ => none

/-- What one run of the program is asked for. -/
structure Invocation where
  /-- How much is to be logged, at most 255. -/
  verbosity : Nat := 0
  /-- The settings file that the user names. -/
  settingsFile : Option String := none
  command : Option Command := none
deriving DecidableEq, Repr, Inhabited

namespace Invocation

/-- What the levels of a command line ask for. -/
def ofGiven (levels : List Given) : Invocation :=
  let innermost := levels.reverse
  { verbosity := ((innermost.map (·.count "debug")).find? (0 < ·)).elim 0 (min 255)
    settingsFile := innermost.findSome? (·.option? "config")
    command := Command.ofGiven? levels.tail }

/-- What the arguments of the program ask for. -/
def read (arguments : List String) : Except Rejection Invocation :=
  (programSpec.read arguments).map ofGiven

end Invocation

end ComboTree
