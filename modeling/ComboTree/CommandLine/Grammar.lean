/-!
# Command lines

A `CommandSpec` describes the options, the values and the subcommands of a command, and
`CommandSpec.read` reads arguments by it.  The result lists what was given to the command, to its
subcommand, and so on, from the outside in.

* `--name`, `--name=value` and `--name value` give an option by name, `-n`, `-nvalue`, `-n=value`
  and `-n value` by letter; letters of options without a value can share one hyphen.
* `--` ends the options; a lone hyphen is a value.
* A value that is still to be checked waits until something else is taken, so of two problems the
  one that is noticed first is not always the one that comes first.  `Progress.settle` is that
  check.
-/

namespace ComboTree.CommandLine

/-- What giving an option means. -/
inductive Effect where
  /-- It may be given any number of times. -/
  | count
  /-- It may be given once. -/
  | flag
  /-- It may be given once and takes a value, which must be one that `accepts` admits. -/
  | value (accepts : String → Bool)
  /-- It asks for the help text. -/
  | help
  /-- It asks for the version. -/
  | version

/-- An option of a command. -/
structure OptionSpec where
  long : String
  short : Option Char := none
  effect : Effect

/-- A place for values without a name. -/
structure Slot where
  name : String
  /-- Whether the slot takes all further values. -/
  many : Bool := false
  accepts : String → Bool := fun _ => true

/-- A command, which has slots or subcommands or neither.  All slots must be filled. -/
structure CommandSpec where
  name : String
  options : List OptionSpec
  slots : List Slot := []
  /-- Whether the command asks for one of its subcommands. -/
  needsSubcommand : Bool := false
  subcommands : List CommandSpec := []

/-- Why arguments are not acted on. -/
inductive Rejection where
  | unknownArgument (argument : String)
  | missingArgument (name : String)
  | unknownSubcommand (argument : String)
  | missingSubcommand
  | invalidValue (name : String)
  | unexpectedValue (option : String)
  | repeatedOption (option : String)
  /-- A command that asks for a subcommand was given nothing at all. -/
  | helpForMissingSubcommand
  /-- The help text was asked for. -/
  | help
  /-- The version was asked for, of the command with these names. -/
  | version (command : List String)
deriving DecidableEq, Repr, Inhabited

/-- What a command was given: options by their long names, values by their slots. -/
structure Given where
  command : String
  options : List (String × String) := []
  values : List (String × String) := []
deriving DecidableEq, Repr, Inhabited

namespace Given

/-- How often an option was given. -/
def count (given : Given) (option : String) : Nat :=
  (given.options.filter (·.1 = option)).length

/-- The value of an option. -/
def option? (given : Given) (option : String) : Option String :=
  given.options.lookup option

/-- The values of a slot. -/
def valuesOf (given : Given) (slot : String) : List String :=
  (given.values.filter (·.1 = slot)).map Prod.snd

/-- The first value of a slot that has been filled. -/
def valueOf (given : Given) (slot : String) : String :=
  (given.valuesOf slot).head?.getD ""

end Given

/-! ## Progress within one command -/

/-- A value that has been seen but not checked. -/
inductive Pending where
  | option (name : String) (accepts : String → Bool) (value : Option String)
  | slot (slot : Slot) (values : List String)

/-- How far the arguments of one command have been read. -/
structure Progress where
  /-- The names of the commands from the outermost to this one. -/
  names : List String
  given : Given
  pending : Option Pending := none
  /-- The number of slots that take no more values. -/
  filled : Nat := 0

namespace Progress

/-- The start of a command. -/
def start (outer : List String) (name : String) : Progress :=
  { names := outer ++ [name], given := { command := name } }

/-- One more option. -/
def record (p : Progress) (option value : String) : Progress :=
  { p with given := { p.given with options := p.given.options ++ [(option, value)] } }

/-- An option with its value, once, if the value is admitted. -/
def recordOnce (p : Progress) (option : String) (accepts : String → Bool) (value : String) :
    Except Rejection Progress :=
  if 0 < p.given.count option then .error (.repeatedOption option)
  else if accepts value then .ok (p.record option value)
  else .error (.invalidValue option)

/-- The progress after what is pending has been checked and recorded. -/
def settle (p : Progress) : Except Rejection Progress :=
  let settled := { p with pending := none }
  match p.pending with
  | none => .ok p
  | some (.option name _ none) => .error (.invalidValue name)
  | some (.option name accepts (some value)) => settled.recordOnce name accepts value
  | some (.slot slot values) =>
    if values.all slot.accepts then
      let more := values.map (slot.name, ·)
      .ok { settled with given := { p.given with values := p.given.values ++ more } }
    else
      .error (.invalidValue slot.name)

/-- Whether the next argument is the value of an option unless it looks like an option. -/
def awaitsValue (p : Progress) : Bool :=
  match p.pending with
  | some (.option _ _ none) => true
  | _ => false

/-- An option that comes without a value attached. -/
def take (p : Progress) (option : OptionSpec) : Except Rejection Progress := do
  let p ← p.settle
  match option.effect with
  | .count => return p.record option.long ""
  | .flag => p.recordOnce option.long (fun _ => true) ""
  | .value accepts => return { p with pending := some (.option option.long accepts none) }
  | .help => throw .help
  | .version => throw (.version p.names)

/-- An option with a value attached. -/
def takeAttached (p : Progress) (option : OptionSpec) (value : String) :
    Except Rejection Progress :=
  match option.effect with
  | .value accepts => do (← p.settle).recordOnce option.long accepts value
  | _ => .error (.unexpectedValue option.long)

end Progress

/-! ## Reading -/

/-- The name and the attached value of an argument that starts with two hyphens. -/
def longOption? (argument : String) : Option (String × Option String) :=
  match argument.toList with
  | '-' :: '-' :: c :: rest =>
    let (name, value) := (c :: rest).span (· ≠ '=')
    some (String.ofList name, value.tail?.map String.ofList)
  | _ => none

/-- The letters of an argument that starts with one hyphen. -/
def shortOptions? (argument : String) : Option (List Char) :=
  match argument.toList with
  | '-' :: c :: rest => if c = '-' then none else some (c :: rest)
  | _ => none

namespace CommandSpec

/-- The subcommand with this name. -/
def subcommand? (spec : CommandSpec) (name : String) : Option CommandSpec :=
  spec.subcommands.find? (·.name = name)

/-- Whether the argument asks for help by the subcommand that every command with subcommands
has besides its own. -/
def isHelp (spec : CommandSpec) (argument : String) : Bool :=
  !spec.subcommands.isEmpty && argument = "help"

/-- The answer to a request for help on the subcommand with these names. -/
def helpOn (spec : CommandSpec) : List String → Rejection
  | [] => .help
  | name :: names =>
    match spec.subcommand? name with
    | some sub => sub.helpOn names
    | none =>
      if spec.isHelp name then
        names.head?.elim .help .unknownSubcommand
      else
        .unknownSubcommand name

/-- An option by its long name. -/
def takeLong (spec : CommandSpec) (p : Progress) (name : String) (value : Option String) :
    Except Rejection Progress :=
  match spec.options.find? (·.long = name), value with
  | none, _ => .error (.unknownArgument s!"--{name}")
  | some option, none => p.take option
  | some option, some value => p.takeAttached option value

/-- Options by their letters.  What follows the letter of an option with a value is the value. -/
def takeShort (spec : CommandSpec) (p : Progress) : List Char → Except Rejection Progress
  | [] => .ok p
  | c :: rest =>
    match spec.options.find? (·.short = some c) with
    | none => .error (.unknownArgument s!"-{c}")
    | some option =>
      match option.effect, rest with
      | .value _, _ :: _ =>
        let value := if rest.head? = some '=' then rest.tail else rest
        p.takeAttached option (String.ofList value)
      | _, _ => do spec.takeShort (← p.take option) rest

/-- A value for the next slot. -/
def takeValue (spec : CommandSpec) (p : Progress) (trailing : Bool) (value : String) :
    Except Rejection Progress :=
  match spec.slots[p.filled]? with
  | none =>
    let named := (spec.subcommand? value).isSome || spec.isHelp value
    if spec.subcommands.isEmpty || (trailing && named) then
      .error (.unknownArgument value)
    else
      .error (.unknownSubcommand value)
  | some slot =>
    match p.pending with
    | some (.slot open? values) =>
      if open?.name = slot.name then
        .ok { p with pending := some (.slot slot (values ++ [value])) }
      else
        fill slot
    | _ => fill slot
where
  /-- The first value of a slot. -/
  fill (slot : Slot) : Except Rejection Progress := do
    let p ← p.settle
    return {
      p with
      pending := some (.slot slot [value])
      filled := if slot.many then p.filled else p.filled + 1 }

/-- What was given, if it is all that the command needs. -/
def finish (spec : CommandSpec) (p : Progress) : Except Rejection Given := do
  let given := (← p.settle).given
  if spec.needsSubcommand then
    throw (if given.options.isEmpty then .helpForMissingSubcommand else .missingSubcommand)
  match spec.slots.find? fun slot => (given.valuesOf slot.name).isEmpty with
  | some slot => throw (.missingArgument slot.name)
  | none => return given

/-- Reads the arguments from where `p` has got to.  `trailing` says whether the options have been
ended. -/
def readFrom (spec : CommandSpec) (p : Progress) (trailing : Bool) :
    List String → Except Rejection (List Given)
  | [] => do return [← spec.finish p]
  | argument :: rest =>
    if trailing then do
      readFrom spec (← spec.takeValue p true argument) true rest
    else
      let plain := !p.awaitsValue
      match if plain then spec.subcommand? argument else none with
      | some sub => do
        let inner ← readFrom sub (.start p.names sub.name) false rest
        return (← p.settle).given :: inner
      | none =>
        if plain && spec.isHelp argument then
          .error (spec.helpOn rest)
        else if argument = "--" then
          readFrom spec p true rest
        else
          match longOption? argument, shortOptions? argument with
          | some (name, value), _ => do readFrom spec (← spec.takeLong p name value) false rest
          | none, some letters => do readFrom spec (← spec.takeShort p letters) false rest
          | none, none =>
            match p.pending with
            | some (.option name accepts none) =>
              let p := { p with pending := some (.option name accepts (some argument)) }
              readFrom spec p false rest
            | _ => do readFrom spec (← spec.takeValue p false argument) false rest

/-- What the arguments give to the command and its subcommands, from the outside in. -/
def read (spec : CommandSpec) (arguments : List String) : Except Rejection (List Given) :=
  spec.readFrom (.start [] spec.name) false arguments

end CommandSpec

end ComboTree.CommandLine
