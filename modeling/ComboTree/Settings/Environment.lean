import ComboTree.Binary64.Decimal
import ComboTree.Binary64.Shortest
import ComboTree.Settings.Fault
import ComboTree.Settings.Layer

/-!
# Settings in the environment

A variable whose name starts with `TREEPATH_`, in any case, gives the setting that the rest of its
name names.  Its text is first given a type, and the typed value is then fitted to the setting.  A
value that does not fit a number or a truth value is passed over; a negative number and an unknown
rule are faults.
-/

namespace ComboTree

/-- The value of a variable after its text has been given a type. -/
inductive VariableValue where
  | boolean (value : Bool)
  | integer (value : Int)
  | number (value : Binary64)
  | text (value : String)
deriving DecidableEq, Repr, Inhabited

namespace VariableValue

/-- The least integer of 64 bits. -/
def leastInteger : Int := Int64.minValue.toInt

/-- The greatest integer of 64 bits. -/
def greatestInteger : Int := Int64.maxValue.toInt

/-- The integer that a text stands for, if 64 bits can hold it. -/
def integerOfText? (text : String) : Option Int :=
  (Binary64.integer? text.toList).filter fun n => leastInteger ≤ n ∧ n ≤ greatestInteger

/-- The typed value of a text: a truth value in any case, else an integer, else a number, else the
text itself. -/
def ofText (text : String) : VariableValue :=
  let word := String.ofList (text.toList.map Char.toLower)
  if word = "true" then boolean true
  else if word = "false" then boolean false
  else match integerOfText? text with
    | some n => integer n
    | none =>
      match Binary64.ofText? text with
      | some x => number x
      | none => VariableValue.text text

/-- The truth value that a word stands for. -/
def truthOfWord? (text : String) : Option Bool :=
  let word := String.ofList (text.toList.map Char.toLower)
  if word = "on" ∨ word = "yes" then some true
  else if word = "off" ∨ word = "no" then some false
  else none

/-- The value as an integer: a number is rounded, and a truth value counts as one or zero. -/
def toInteger? : VariableValue → Option Int
  | boolean b => some b.toInt
  | integer n => some n
  | number x => some (x.roundedInt leastInteger greatestInteger)
  | text word => (truthOfWord? word).map Bool.toInt

/-- The value as a truth value: a number is true if it is not zero. -/
def toBoolean? : VariableValue → Option Bool
  | boolean b => some b
  | integer n => some (n ≠ 0)
  | number x => some x.isNonzero
  | text word => truthOfWord? word

/-- The value as text, written anew. -/
def toText : VariableValue → String
  | boolean b => toString b
  | integer n => toString n
  | number x => x.toText
  | text word => word

end VariableValue

namespace SettingsLayer

/-- A character of a variable's name in lower case.  Besides the letters of ASCII, the sign for
kelvin has a lower case in ASCII. -/
def lowerNameChar (c : Char) : Char :=
  if c = '\u212A' then 'k' else c.toLower

/-- What a variable of this name sets, if its name starts as it must. -/
def settingOfVariable? (name : String) : Option String :=
  let lower := name.toList.map lowerNameChar
  let start := "treepath_".toList
  if start.isPrefixOf lower then some (String.ofList (lower.drop start.length)) else none

/-- The typed value that the environment gives for a setting; of several variables with one name
but for case, the last one counts. -/
def variableFor? (environment : List (String × String)) (setting : String) :
    Option VariableValue :=
  (environment.reverse.find? fun entry => settingOfVariable? entry.1 = some setting).map
    fun entry => .ofText entry.2

/-- A count from the environment. -/
def countOfVariable (environment : List (String × String)) (setting shownName : String) :
    Except SettingsFault (Option Nat) :=
  match (variableFor? environment setting).bind VariableValue.toInteger? with
  | none => .ok none
  | some n => if 0 ≤ n then .ok (some n.toNat) else .error (.outOfRange shownName n)

/-- A synonym rule from the environment. -/
def ruleOfVariable (environment : List (String × String)) :
    Except SettingsFault (Option SynonymRule) :=
  match variableFor? environment "synonym_rule" with
  | none => .ok none
  | some value =>
    match SynonymRule.ofName? value.toText with
    | some rule => .ok (some rule)
    | none => .error (.unknownRule value.toText)

/-- The settings in the environment. -/
def ofEnvironment (environment : List (String × String)) : Except SettingsFault SettingsLayer := do
  let truth := fun setting => (variableFor? environment setting).bind VariableValue.toBoolean?
  return {
    maxAlternatives :=
      ← countOfVariable environment "max_alternatives" "TREEPATH_MAX_ALTERNATIVES"
    maxNodes := ← countOfVariable environment "max_nodes" "TREEPATH_MAX_NODES"
    synonymRule := ← ruleOfVariable environment
    validateUniformLevels := truth "validate_uniform_levels"
    strictTokens := truth "strict_tokens" }

end SettingsLayer

end ComboTree
