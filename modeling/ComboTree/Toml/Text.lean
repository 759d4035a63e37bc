import ComboTree.Toml.Reader
import ComboTree.Toml.Scalar

/-!
# Blanks, comments, strings and keys of TOML

The parts of a TOML text that are made of characters alone.  A string is written in one of four
ways: basic or literal, on one line or on several.  Escapes are replaced in basic strings only, and
a line ending inside a string is read as a line feed.  A key is a run of letters, digits, `_` and
`-`, or a one-line string.
-/

namespace ComboTree.Toml

open Reader

/-! ## Character classes -/

/-- Whether `c` is a space or a tab. -/
def isBlank (c : Char) : Bool := c = ' ' || c = '\t'

/-- Whether `c` is allowed in a comment: no control character but the tab. -/
def isCommentChar (c : Char) : Bool :=
  c = '\t' || (0x20 ≤ c.toNat && c.toNat ≠ 0x7F)

/-- Whether `c` stands for itself in a basic string. -/
def isBasicChar (c : Char) : Bool := isCommentChar c && c ≠ '"' && c ≠ '\\'

/-- Whether `c` is allowed in a literal string. -/
def isLiteralChar (c : Char) : Bool := isCommentChar c && c ≠ '\''

/-- Whether `c` is allowed in a key without quotes. -/
def isBareKeyChar (c : Char) : Bool := c.isAlphanum || c = '_' || c = '-'

/-! ## Blanks and line ends -/

/-- Spaces and tabs. -/
def blanks : Reader Unit := do
  let _ ← takeWhile isBlank

/-- A line ending: a line feed, with or without a carriage return before it. -/
def newline : Reader Unit := char '\n' <|> exact ['\r', '\n']

/-- A comment, up to the line ending. -/
def comment : Reader Unit := do
  char '#'
  let _ ← takeWhile isCommentChar

/-- A line ending or the end of the text. -/
def lineEnd : Reader Unit := newline <|> atEnd

/-- What may follow on the line of a value or a header. -/
def trailing : Reader Unit := do
  blanks
  let _ ← optional? comment
  lineEnd

/-- Spaces, tabs, line endings and whole comments, as between the items of an array. -/
def padding : Reader Unit := do
  let blankRun : Reader Unit := do let _ ← takeWhile1 isBlank
  let _ ← many (blankRun <|> newline <|> do comment; newline)

/-! ## Strings -/

/-- The character with this number, if the number is that of a character. -/
def scalarValue? (n : Nat) : Option Char :=
  if n.isValidChar then some (Char.ofNat n) else none

/-- A character given by exactly `count` hexadecimal digits. -/
def codePoint (count : Nat) : Reader Char := do
  let digits ← (List.replicate count ()).mapM fun _ =>
    satisfy fun c => (digitValue? 16 c).isSome
  ofOption (scalarValue? (ofDigitsInBase 16 digits))

/-- A backslash and what it stands for together with the following characters. -/
def escape : Reader Char := do
  char '\\'
  match ← satisfy fun _ => true with
  | 'b' => return '\x08'
  | 't' => return '\t'
  | 'n' => return '\n'
  | 'f' => return '\x0c'
  | 'r' => return '\r'
  | '"' => return '"'
  | '\\' => return '\\'
  | 'u' => codePoint 4
  | 'U' => codePoint 8
  | _ => failure

/-- A string between double quotes on one line. -/
def basicString : Reader String := do
  char '"'
  let parts ← many (takeWhile1 isBasicChar <|> (List.singleton <$> escape))
  char '"'
  return String.ofList parts.flatten

/-- A string between single quotes on one line. -/
def literalString : Reader String := do
  char '\''
  let text ← takeWhile isLiteralChar
  char '\''
  return String.ofList text

/-- One or two quotes that do not close a string of several lines. -/
def innerQuotes (quote : Char) : Reader (List Char) := do
  let run ← takeWhile (· = quote)
  let next ← peek?
  if (run.length = 1 ∨ run.length = 2) ∧ next.isSome then return run else failure

/-- The three quotes that close a string of several lines, after up to two that belong to it. -/
def closingQuotes (quote : Char) : Reader (List Char) := do
  let run ← takeWhile (· = quote)
  if 3 ≤ run.length ∧ run.length ≤ 5 then return run.drop 3 else failure

/-- A backslash at the end of a line, which takes all blanks and line endings that follow. -/
def lineContinuation : Reader (List Char) := do
  char '\\'
  blanks
  newline
  let blankRun : Reader Unit := do let _ ← takeWhile1 isBlank
  let _ ← many (blankRun <|> newline)
  return []

/-- A line ending inside a string. -/
def lineFeed : Reader (List Char) := do
  newline
  return ['\n']

/-- A string between triple quotes, whose parts `part` takes; a line ending right after the
opening quotes does not count. -/
def multiLineString (quote : Char) (part : Reader (List Char)) : Reader String := do
  exact [quote, quote, quote]
  let _ ← optional? newline
  let parts ← many (part <|> lineFeed <|> innerQuotes quote)
  let last ← closingQuotes quote
  return String.ofList (parts.flatten ++ last)

/-- A string between three double quotes on each side. -/
def multiLineBasicString : Reader String :=
  multiLineString '"'
    (takeWhile1 isBasicChar <|> lineContinuation <|> (List.singleton <$> escape))

/-- A string between three single quotes on each side. -/
def multiLineLiteralString : Reader String :=
  multiLineString '\'' (takeWhile1 isLiteralChar)

/-- A string in any of the four ways. -/
def string : Reader String :=
  multiLineBasicString <|> basicString <|> multiLineLiteralString <|> literalString

/-! ## Keys -/

/-- A key without quotes. -/
def bareKey : Reader String := String.ofList <$> takeWhile1 isBareKeyChar

/-- One part of a key, with the blanks around it. -/
def keyPart : Reader String := do
  blanks
  let part ← basicString <|> literalString <|> bareKey
  blanks
  return part

/-- The most parts of a key, and one more than the most arrays and tables in one another. -/
def nestingLimit : Nat := 80

/-- A key: one part, or several with points between them. -/
def key : Reader (List String) := do
  let parts ← sepBy1 keyPart (char '.')
  if parts.length < nestingLimit then return parts else failure

end ComboTree.Toml
