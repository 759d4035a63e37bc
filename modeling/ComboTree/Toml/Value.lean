import ComboTree.Toml.Item
import ComboTree.Toml.Scalar
import ComboTree.Toml.Text

/-!
# Values of TOML

Strings, lexemes, arrays between brackets and tables between braces.  Arrays may run over several
lines and end in a comma; tables between braces may not.
-/

namespace ComboTree.Toml

open Reader

/-- Whether `c` can be part of a number, a truth value, a date or a time. -/
def isLexemeChar (c : Char) : Bool :=
  c.isAlphanum || c = '+' || c = '-' || c = '_' || c = '.' || c = ':'

/-- What is written without quotes or brackets, up to a blank or a delimiter. -/
def lexeme : Reader (List Char) := takeWhile1 isLexemeChar

/-- The item that a lexeme stands for. -/
def Item.ofLexeme? (text : List Char) : Option Item :=
  (boolean? text).map Item.boolean <|> (integer? text).map Item.integer <|>
    (float? text).map Item.float <|> (namedFloat? text).map Item.float <|>
    if isDateOrTime text then some (.dateTime (String.ofList text)) else none

/-- The time after a date and a single space. -/
def timeAfterSpace : Reader (List Char) := do
  char ' '
  let time ← lexeme
  if isTime time then return ' ' :: time else failure

/-- A value other than an array or a table. -/
def scalar : Reader Item := Item.text <$> string <|> do
  let text ← lexeme
  if isDate text then
    let time ← optional? timeAfterSpace
    return .dateTime (String.ofList (text ++ time.getD []))
  else
    ofOption (Item.ofLexeme? text)

/-- An array of items that `item` takes. -/
def array (item : Reader Item) : Reader Item := do
  let padded : Reader Item := do
    padding
    let value ← item
    padding
    return value
  char '['
  let items ← sepBy padded (char ',')
  if !items.isEmpty then
    let _ ← optional? (char ',')
  padding
  char ']'
  return .array items

/-- A table between braces, whose values `item` takes. -/
def inlineTable (item : Reader Item) : Reader Item := do
  let pair : Reader (List String × Item) := do
    let path ← key
    char '='
    blanks
    let value ← item
    blanks
    return (path, value)
  char '\x7b'
  let pairs ← sepBy pair (char ',')
  blanks
  char '\x7d'
  let insert := fun (entries : Entries) (pair : List String × Item) =>
    entries.insertInlineKey? pair.1.dropLast (pair.1.getLast?.getD "") pair.2
  return .table .inline (← ofOption (pairs.foldlM insert []))

/-- A value in which arrays and tables are nested at most `depth` deep. -/
def value : Nat → Reader Item
  | 0 => scalar
  | depth + 1 => array (value depth) <|> inlineTable (value depth) <|> scalar

end ComboTree.Toml
