import ComboTree.Text.Pieces

/-!
# The machine the program runs on

A `Host` is what the program reads of its machine: the variables of the environment and what a
file name leads to.  Nothing else of the machine has an influence on an answer.
-/

namespace ComboTree

/-- What a file name leads to. -/
inductive FileEntry where
  /-- A file that can be read, with its contents. -/
  | contents (text : String)
  /-- Something that is there but cannot be read as a file. -/
  | unreadable (reason : String)
  /-- Nothing. -/
  | absent (reason : String)
deriving DecidableEq, Repr, Inhabited

namespace FileEntry

/-- Whether something is there. -/
def isPresent : FileEntry → Bool
  | contents _ | unreadable _ => true
  | absent _ => false

/-- The contents, or why there are none. -/
def read : FileEntry → Except String String
  | contents text => .ok text
  | unreadable reason | absent reason => .error reason

end FileEntry

/-- The environment and the files of a machine. -/
structure Host where
  /-- The variables with their values; of two with one name, the later one counts. -/
  environment : List (String × String)
  /-- What a file name leads to. -/
  file : String → FileEntry

namespace Host

/-- The value of a variable. -/
def valueOf? (host : Host) (name : String) : Option String :=
  host.environment.reverse.lookup name

/-- A file name below a directory; a slash at the end of the directory is not doubled. -/
def join (directory name : String) : String :=
  if directory = "" ∨ directory.toList.getLast? = some '/' then directory ++ name
  else directory ++ "/" ++ name

/-- Whether a file name starts at the top of the file system. -/
def isAbsolute (path : String) : Bool :=
  path.toList.head? = some '/'

/-- The directory for the settings of all programs: `XDG_CONFIG_HOME` if it is an absolute path,
and `.config` in the home directory otherwise. -/
def configDirectory? (host : Host) : Option String :=
  match (host.valueOf? "XDG_CONFIG_HOME").filter isAbsolute with
  | some directory => some directory
  | none =>
    ((host.valueOf? "HOME").filter (· ≠ "")).map fun home => join home ".config"

/-- The name of the settings file that holds for all runs. -/
def globalSettingsFile? (host : Host) : Option String :=
  host.configDirectory?.map fun directory => join (join directory "treepath") "treepath.toml"

end Host

end ComboTree
