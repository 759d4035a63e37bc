/-!
# What can go wrong with settings
-/

namespace ComboTree

/-- Why settings could not be read or written. -/
inductive SettingsFault where
  /-- A settings file could not be read. -/
  | unreadable (file reason : String)
  /-- A settings file is no settings file: not TOML, or a setting with an impossible value. -/
  | malformed (file : String)
  /-- A variable gives a negative number where a count is needed. -/
  | outOfRange (variableName : String) (value : Int)
  /-- No rule has this name. -/
  | unknownRule (name : String)
  /-- A number is too large for a settings file. -/
  | unwritable
  /-- A problem put in words by the caller. -/
  | described (message : String)
deriving DecidableEq, Repr, Inhabited

/-- The fault as it is shown to the user. -/
def SettingsFault.message : SettingsFault → String
  | unreadable file reason => s!"read {file}: {reason}"
  | malformed file => s!"parse {file}"
  | outOfRange variableName value => s!"{variableName} out of range: {value}"
  | unknownRule name => s!"unknown synonym rule: {name}"
  | unwritable => "serialize settings: out-of-range value for u64 type"
  | described message => message

end ComboTree
