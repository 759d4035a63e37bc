import ComboTree.Toml.Value

/-!
# TOML documents

A document is read line by line into a `Draft`: the tables that are complete, and the section of
the latest header, which goes into its place when the next header or the end is reached.

* `read?`  the entries of a document's outermost table, if the text is a document
-/

namespace ComboTree.Toml

open Reader

/-- Where the section that is being read belongs. -/
inductive Section where
  /-- Before the first header. -/
  | outermost
  /-- Under the header `[path.name]`. -/
  | table (path : List String) (name : String)
  /-- Under the header `[[path.name]]`. -/
  | element (path : List String) (name : String)
deriving Repr, Inhabited

/-- A document that has been read up to some line. -/
structure Draft where
  complete : Entries := []
  place : Section := .outermost
  current : Entries := []
deriving Inhabited

namespace Draft

/-- All entries, the latest section in its place. -/
def close? (draft : Draft) : Option Entries :=
  match draft.place with
  | .outermost => some draft.current
  | .table path name =>
    draft.complete.updateAtHeader path fun entries =>
      some (entries.set name (.table .header draft.current))
  | .element path name =>
    draft.complete.updateAtHeader path fun entries =>
      match entries.lookup name with
      | none => some (entries.set name (.tables [draft.current]))
      | some (.tables elements) => some (entries.set name (.tables (elements ++ [draft.current])))
      | some _ => none

/-- What the table `[path.name]` holds already when its header comes; it must not have been
written out before. -/
def reopened? (complete : Entries) (path : List String) (name : String) : Option Entries := do
  match path with
  | [] =>
    match complete.lookup name with
    | none => some []
    | some (.table .implied inner) => some inner
    | some _ => none
  | step :: path =>
    match complete.lookup step with
    | none => some []
    | some (.table form inner) =>
      if form = .header ∨ form = .implied ∨ form = .dotted then
        reopened? inner path name
      else
        none
    | some (.tables elements) => reopened? (elements.getLast?.getD []) path name
    | some _ => none

/-- The draft at the start of the section `[path.name]`. -/
def openTable? (draft : Draft) (path : List String) (name : String) : Option Draft := do
  let complete ← draft.close?
  let current ← reopened? complete path name
  return { complete, place := .table path name, current }

/-- The draft at the start of the section `[[path.name]]`. -/
def openElement? (draft : Draft) (path : List String) (name : String) : Option Draft := do
  let complete ← draft.close?
  let next : Draft := { complete, place := .element path name, current := [] }
  -- Whether the name is free for a repeated header shows when the section is closed.
  let _ ← next.close?
  return next

/-- The draft with one more item in the current section. -/
def insertKey? (draft : Draft) (path : List String) (name : String) (item : Item) :
    Option Draft := do
  return { draft with current := ← draft.current.insertKey? path name item }

end Draft

/-- A key is a path and a last name. -/
def splitKey (key : List String) : List String × String :=
  (key.dropLast, key.getLast?.getD "")

/-- A line `key = value`. -/
def keyValueLine (draft : Draft) : Reader Draft := do
  let (path, name) := splitKey (← key)
  char '='
  blanks
  let item ← value (nestingLimit - 1)
  trailing
  ofOption (draft.insertKey? path name item)

/-- A line `[key]`. -/
def tableLine (draft : Draft) : Reader Draft := do
  char '['
  let (path, name) := splitKey (← key)
  char ']'
  trailing
  ofOption (draft.openTable? path name)

/-- A line `[[key]]`. -/
def elementLine (draft : Draft) : Reader Draft := do
  exact ['[', '[']
  let (path, name) := splitKey (← key)
  exact [']', ']']
  trailing
  ofOption (draft.openElement? path name)

/-- A line without an item. -/
def emptyLine (draft : Draft) : Reader Draft := do
  newline <|> do comment; lineEnd
  return draft

/-- One line and the blanks before the next. -/
def line (draft : Draft) : Reader Draft := do
  let draft ← emptyLine draft <|> elementLine draft <|> tableLine draft <|> keyValueLine draft
  blanks
  return draft

/-- A whole document, which may start with a byte order mark. -/
def document : Reader Entries := do
  let _ ← optional? (char '\uFEFF')
  blanks
  let draft ← repeated line {}
  ofOption draft.close?

/-- The entries of the outermost table of a document. -/
def read? (text : String) : Option Entries := document.readAll? text

end ComboTree.Toml
