import ComboTree.Collapse
import ComboTree.Settings.Basic

/-!
# What the program does for given settings

Each operation starts from a path structure or from tokens and applies the settings to building,
collapsing and searching.
-/

namespace ComboTree.Settings

/-- The tree of a path structure. -/
def expand (s : Settings) (path : String) : Except Fault Tree :=
  s.policy.expand path

/-- The path structure of a tree. -/
def collapseTree (s : Settings) (t : Tree) : Except Fault String :=
  t.collapse s.validateUniformLevels

/-- The path structure of the tree of a path structure. -/
def collapse (s : Settings) (path : String) : Except Fault String := do
  s.collapseTree (← s.expand path)

/-- The labels of all combinations of the given tokens. -/
def combinations (s : Settings) (tokens : List String) : Except Fault (List String) :=
  s.policy.labelsOf tokens

/-- The paths of the leaves of the tree of a path structure. -/
def leaves (s : Settings) (path : String) : Except Fault (List String) :=
  (s.expand path).map Tree.leafPaths

/-- The path of a synonym, in the tree of `path`, of the node at the path `reference`. -/
def synonym (s : Settings) (path reference : String) : Except Fault (Option String) := do
  (← s.expand path).findSynonymByPath s.synonymRule reference

/-- The tree of `base`, extended by the given insertions in order. -/
def insert (s : Settings) (mode : InsertMode) (base : String) (paths : List String) :
    Except Fault Tree := do
  s.policy.insertAll mode (← s.expand base) paths

end ComboTree.Settings
