/-!
# What can go wrong with a path structure or a tree

A `Fault` is a cause: it names the rule that was broken and the data that broke it.  The wording
is in `PathProblem.text` and `Fault.message` alone, and inserts the data verbatim.
-/

namespace ComboTree

/-- Why a text is no path structure. -/
inductive PathProblem where
  /-- The text does not start with a separator. -/
  | noLeadingSeparator
  /-- The text ends with a separator. -/
  | trailingSeparator
  /-- Nothing stands between two separators. -/
  | emptySegment (depth : Nat)
  /-- An alternative of a segment is empty. -/
  | emptyToken (depth : Nat)
  /-- A token holds the character that joins the members of a combination. -/
  | reservedSeparator (token : String)
  /-- A path for an insertion has one segment only. -/
  | noParentSegment
  /-- A problem put in words by the caller. -/
  | described (reason : String)
deriving DecidableEq, Repr, Inhabited

/-- The reason as it is shown to the user. -/
def PathProblem.text : PathProblem → String
  | noLeadingSeparator => "must start with '/'"
  | trailingSeparator => "must not end with '/'"
  | emptySegment depth => s!"empty segment at depth {depth}"
  | emptyToken depth => s!"empty token at depth {depth}"
  | reservedSeparator token => s!"token '{token}' contains reserved separator '-'"
  | noParentSegment => "needs a parent segment before the inserted level"
  | described reason => reason

/-- A violation of the path notation, of a limit, or of the shape of a tree. -/
inductive Fault where
  /-- `path` is not in the notation. -/
  | malformedPath (path : String) (problem : PathProblem)
  /-- The root level of `path` offers alternatives. -/
  | rootAlternatives (path : String)
  /-- No node is labelled `component` where `path` needs one. -/
  | parentNotFound (path component : String)
  /-- There is no level, or no root token, to build a tree from. -/
  | noLevels
  /-- One level has `count` distinct alternatives. -/
  | tooManyAlternatives (count limit : Nat)
  /-- A tree would have `count` nodes. -/
  | tooManyNodes (count limit : Nat)
  /-- The children of the node at `path` differ from those of the first node of its depth. -/
  | unevenLevel (depth : Nat) (path : String)
  /-- No node has this path. -/
  | nodeNotFound (path : String)
deriving DecidableEq, Repr, Inhabited

/-- The fault as it is shown to the user. -/
def Fault.message : Fault → String
  | malformedPath path problem => s!"invalid path structure '{path}': {problem.text}"
  | rootAlternatives path =>
    s!"invalid path structure '{path}': the root node can not be a combination"
  | parentNotFound path component =>
    s!"parent path not found for '{path}': no node '{component}'"
  | noLevels => "path structure yields no levels"
  | tooManyAlternatives count limit =>
    s!"too many alternatives in one level: {count} (limit {limit})"
  | tooManyNodes count limit => s!"tree would hold {count} nodes (limit {limit})"
  | unevenLevel depth path =>
    s!"inconsistent tree structure at depth {depth}: children of {path} differ from its level"
  | nodeNotFound path => s!"node not found: {path}"

end ComboTree
