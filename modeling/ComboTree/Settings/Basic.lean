import ComboTree.Expansion
import ComboTree.Synonym

/-!
# Settings

The five settings of the program and their written form, one `key = value` line each.  The written
form is a settings file; the largest number it can hold is `2 ^ 63 - 1`.
-/

namespace ComboTree

/-- How the program expands, collapses and searches. -/
structure Settings where
  /-- The most distinct alternatives in one level. -/
  maxAlternatives : Nat := 12
  /-- The most nodes of an expanded tree. -/
  maxNodes : Nat := 1000000
  /-- What a synonym search leaves out. -/
  synonymRule : SynonymRule := .distinctLabel
  /-- Whether collapsing refuses a tree in which nodes of one depth have different children. -/
  validateUniformLevels : Bool := false
  /-- Whether tokens must be free of the member separator. -/
  strictTokens : Bool := false
deriving DecidableEq, Repr, Inhabited

namespace Settings

/-- What these settings accept in an expansion. -/
def policy (s : Settings) : Policy :=
  { strict := s.strictTokens, maxAlternatives := s.maxAlternatives, maxNodes := s.maxNodes }

/-- The largest number in a settings file. -/
def largestNumber : Nat := Int64.maxValue.toInt.toNat

/-- The settings as the contents of a settings file, if both numbers can be written. -/
def toText? (s : Settings) : Option String :=
  if s.maxAlternatives ≤ largestNumber ∧ s.maxNodes ≤ largestNumber then
    some <| String.join
      [ s!"max-alternatives = {s.maxAlternatives}\n",
        s!"max-nodes = {s.maxNodes}\n",
        s!"synonym-rule = \"{s.synonymRule.name}\"\n",
        s!"validate-uniform-levels = {s.validateUniformLevels}\n",
        s!"strict-tokens = {s.strictTokens}\n" ]
  else
    none

end Settings

end ComboTree
