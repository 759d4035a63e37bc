import ComboTree.Host.Basic
import ComboTree.Settings.Environment
import ComboTree.Settings.File

/-!
# Loading settings

Settings are the defaults under up to three layers, from the bottom: the global settings file if
there is one, the settings file that the user names, which must be there, and the environment.
The layers are read in this order, and the first that cannot be used is the fault, whether or not
a later one would have hidden what is wrong with it.
-/

namespace ComboTree.Settings

/-- The layer in a settings file. -/
def readLayer (host : Host) (file : String) : Except SettingsFault SettingsLayer := do
  let text ← (host.file file).read.mapError (.unreadable file)
  match SettingsLayer.ofText? text with
  | some layer => return layer
  | none => throw (.malformed file)

/-- The layer in the global settings file, which need not be there. -/
def globalLayer (host : Host) : Except SettingsFault SettingsLayer :=
  match host.globalSettingsFile? with
  | none => .ok {}
  | some file => if (host.file file).isPresent then readLayer host file else .ok {}

/-- The layer in the file that the user names, if one is named. -/
def explicitLayer (host : Host) : Option String → Except SettingsFault SettingsLayer
  | none => .ok {}
  | some file => readLayer host file

/-- The defaults under one settings file and nothing else. -/
def ofFile (host : Host) (file : String) : Except SettingsFault Settings :=
  (readLayer host file).map fun layer => Settings.overlay {} layer

/-- The settings for a run on `host` for which the user may name a settings file. -/
def load (host : Host) (named : Option String) : Except SettingsFault Settings := do
  let everywhere ← globalLayer host
  let explicit ← explicitLayer host named
  let environment ← SettingsLayer.ofEnvironment host.environment
  return (((({} : Settings).overlay everywhere).overlay explicit).overlay environment)

end ComboTree.Settings
