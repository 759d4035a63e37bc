import ComboTree.Binary64.Basic

/-!
# Items of a TOML document

A document is a table: named items, some of them tables in turn.  How a table came to be decides
what may be added to it later, so a table carries its `TableForm`.

* A table with its own header, or written inline, is complete and is not reopened by a dotted key.
* A table that was only named on the way to another header may still get its own header, once.
* A table made by dotted keys gets further items by dotted keys only.

`update` goes to the table at a path, makes the tables that are missing, and applies a change there.
-/

namespace ComboTree.Toml

/-- How a table came to be. -/
inductive TableForm where
  /-- By its own header. -/
  | header
  /-- On the way to the table of another header. -/
  | implied
  /-- By a dotted key. -/
  | dotted
  /-- Between braces. -/
  | inline
  /-- By a dotted key between braces. -/
  | inlineDotted
deriving DecidableEq, Repr, Inhabited

/-- A value or a table of a document. -/
inductive Item where
  | text (value : String)
  | integer (value : Int)
  | float (value : Binary64)
  | boolean (value : Bool)
  | dateTime (written : String)
  | array (items : List Item)
  | table (form : TableForm) (entries : List (String × Item))
  /-- The tables of a repeated header, in order. -/
  | tables (elements : List (List (String × Item)))
deriving Repr, Inhabited

/-- Named items, in the order in which they were first named. -/
abbrev Entries := List (String × Item)

namespace Entries

/-- The entries with `name` standing for `item`, in its old place if it had one. -/
def set (entries : Entries) (name : String) (item : Item) : Entries :=
  if (entries.lookup name).isSome then
    entries.map fun entry => if entry.1 = name then (name, item) else entry
  else
    entries ++ [(name, item)]

/-- The entries with one more, whose name must be new. -/
def insertNew? (entries : Entries) (name : String) (item : Item) : Option Entries :=
  if (entries.lookup name).isSome then none else some (entries ++ [(name, item)])

/-- The entries after `change` has been made to the table at `path`.  `enter?` says whether a
table of a given form may be gone into, and `missing` is the form of the tables that are made on
the way.  Of a repeated header, the last table is meant. -/
def update (enter? : TableForm → Bool) (missing : TableForm)
    (change : TableForm → Entries → Option Entries) :
    List String → TableForm → Entries → Option Entries
  | [], form, entries => change form entries
  | name :: path, _, entries =>
    match entries.lookup name with
    | none => do
      let inner ← update enter? missing change path missing []
      return entries.set name (.table missing inner)
    | some (.table form inner) =>
      if enter? form then do
        let inner ← update enter? missing change path form inner
        return entries.set name (.table form inner)
      else
        none
    | some (.tables elements) =>
      match elements.getLast? with
      | some last => do
        let last ← update enter? missing change path .header last
        return entries.set name (.tables (elements.dropLast ++ [last]))
      | none => none
    | some _ => none

/-- One more item under a possibly dotted key in a table with its own header. -/
def insertKey? (entries : Entries) (path : List String) (name : String) (item : Item) :
    Option Entries :=
  let change := fun form (entries : Entries) =>
    if path.isEmpty || form = .dotted then entries.insertNew? name item else none
  update (fun form => form = .implied || form = .dotted) .dotted change path .header entries

/-- One more item under a possibly dotted key in a table between braces. -/
def insertInlineKey? (entries : Entries) (path : List String) (name : String) (item : Item) :
    Option Entries :=
  update (· = .inlineDotted) .inlineDotted (fun _ entries => entries.insertNew? name item)
    path .inline entries

/-- A change to the table that holds what a header names. -/
def updateAtHeader (entries : Entries) (path : List String)
    (change : Entries → Option Entries) : Option Entries :=
  update (fun form => form = .header || form = .implied || form = .dotted) .implied
    (fun _ entries => change entries) path .header entries

end Entries

end ComboTree.Toml
