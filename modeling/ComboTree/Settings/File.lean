import ComboTree.Settings.Layer
import ComboTree.Toml.Document

/-!
# Settings files

A settings file is a TOML document.  Five keys of its outermost table are settings; all others are
left alone, whatever they hold.  A setting with an item of the wrong kind makes the whole file
unusable, as does any text that is not TOML.
-/

namespace ComboTree

open Toml (Item Entries)

namespace Toml.Item

/-- A count: an integer that is not negative. -/
def count? : Item → Option Nat
  | integer n => if 0 ≤ n then some n.toNat else none
  | _ => none

/-- A truth value. -/
def truth? : Item → Option Bool
  | boolean b => some b
  | _ => none

/-- Whether the item is an array or a table that holds nothing. -/
def holdsNothing : Item → Bool
  | array items => items.isEmpty
  | table _ entries => entries.isEmpty
  | tables elements => elements.isEmpty
  | _ => false

/-- A synonym rule: its name, or a table whose only key is its name and holds nothing. -/
def synonymRule? : Item → Option SynonymRule
  | text name => SynonymRule.ofName? name
  | table _ [(name, item)] => if item.holdsNothing then SynonymRule.ofName? name else none
  | _ => none

end Toml.Item

/-- What `read` makes of the item of a key; a key that is not there gives nothing. -/
def Toml.Entries.setting? {α : Type} (entries : Entries) (key : String) (read : Item → Option α) :
    Option (Option α) :=
  match entries.lookup key with
  | none => some none
  | some item => (read item).map some

namespace SettingsLayer

/-- The settings in the outermost table of a document. -/
def ofEntries? (entries : Entries) : Option SettingsLayer := do
  return {
    maxAlternatives := ← entries.setting? "max-alternatives" Item.count?
    maxNodes := ← entries.setting? "max-nodes" Item.count?
    synonymRule := ← entries.setting? "synonym-rule" Item.synonymRule?
    validateUniformLevels := ← entries.setting? "validate-uniform-levels" Item.truth?
    strictTokens := ← entries.setting? "strict-tokens" Item.truth? }

/-- The settings in the text of a settings file. -/
def ofText? (text : String) : Option SettingsLayer := do
  ofEntries? (← Toml.read? text)

end SettingsLayer

end ComboTree
