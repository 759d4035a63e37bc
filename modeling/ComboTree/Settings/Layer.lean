import ComboTree.Settings.Basic

/-!
# Layers of settings

A `SettingsLayer` gives some of the settings and leaves the others alone.  Laying it over settings
changes what it gives and nothing else, so each setting has the value of the topmost layer that
gives it.

* `overlay_empty`  a layer that gives nothing changes nothing
-/

namespace ComboTree

/-- Some of the settings. -/
structure SettingsLayer where
  maxAlternatives : Option Nat := none
  maxNodes : Option Nat := none
  synonymRule : Option SynonymRule := none
  validateUniformLevels : Option Bool := none
  strictTokens : Option Bool := none
deriving DecidableEq, Repr, Inhabited

/-- The settings with what `layer` gives in place of what they had. -/
def Settings.overlay (s : Settings) (layer : SettingsLayer) : Settings where
  maxAlternatives := layer.maxAlternatives.getD s.maxAlternatives
  maxNodes := layer.maxNodes.getD s.maxNodes
  synonymRule := layer.synonymRule.getD s.synonymRule
  validateUniformLevels := layer.validateUniformLevels.getD s.validateUniformLevels
  strictTokens := layer.strictTokens.getD s.strictTokens

/-- A layer that gives nothing changes nothing. -/
theorem Settings.overlay_empty (s : Settings) : s.overlay {} = s := rfl

end ComboTree
