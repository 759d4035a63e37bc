import ComboTree.Fault
import ComboTree.Text.Pieces

/-!
# The path notation: `/root/a|b/c|d|e`

A path structure lists the levels of a tree from the root down.  Levels are separated by `/`, the
alternatives of one level by `|`, and the root level has exactly one token.  Tokens are non-empty;
the strict form of the notation also keeps `-`, the character that joins the members of a
combination, out of every token.

`segments` checks the slashes, `tokens` the alternatives of one segment, and `parse` does both for
all levels; the first problem is the one reported.  `serialize` writes levels in the notation.
-/

namespace ComboTree

open Text (pieces joined)

/-- The distinct alternatives at one depth, in the order of their first occurrences. -/
structure Level where
  depth : Nat
  tokens : List String
deriving DecidableEq, Repr, Inhabited

namespace PathStructure

/-- Separates levels, and the labels of a node's path. -/
def levelSeparator : Char := '/'

/-- Separates the alternatives of a level. -/
def alternativeSeparator : Char := '|'

/-- Joins the members of a combination's label. -/
def memberSeparator : Char := '-'

/-- The texts between the slashes of `path`, the root's first; alternatives are not split. -/
def segments (path : String) : Except Fault (List String) :=
  match pieces levelSeparator path with
  | "" :: root :: below =>
    if (root :: below).getLast? = some "" then
      .error (.malformedPath path .trailingSeparator)
    else if alternativeSeparator ∈ root.toList then
      .error (.rootAlternatives path)
    else
      match (root :: below).findIdx? (· = "") with
      | some depth => .error (.malformedPath path (.emptySegment depth))
      | none => .ok (root :: below)
  | _ => .error (.malformedPath path .noLeadingSeparator)

/-- What is wrong with one alternative at `depth`, if anything is. -/
def tokenProblem? (strict : Bool) (depth : Nat) (token : String) : Option PathProblem :=
  if token = "" then
    some (.emptyToken depth)
  else if strict ∧ memberSeparator ∈ token.toList then
    some (.reservedSeparator token)
  else
    none

/-- The distinct alternatives of one segment of `path`, or the problem of the leftmost bad one. -/
def tokens (strict : Bool) (path : String) (depth : Nat) (segment : String) :
    Except Fault (List String) :=
  let alternatives := pieces alternativeSeparator segment
  match alternatives.findSome? (tokenProblem? strict depth) with
  | some problem => .error (.malformedPath path problem)
  | none => .ok alternatives.eraseDups

/-- The levels of a path structure, root first. -/
def parse (strict : Bool) (path : String) : Except Fault (List Level) := do
  (← segments path).zipIdx.mapM fun (segment, depth) => do
    return { depth, tokens := ← tokens strict path depth segment }

/-- The given segments, each after a slash. -/
def ofSegments (segments : List String) : String :=
  String.join (segments.map (String.singleton levelSeparator ++ ·))

/-- The path structure with the given root and the given alternatives below it. -/
def serialize (root : String) (levels : List (List String)) : String :=
  ofSegments (root :: levels.map (joined alternativeSeparator))

end PathStructure

end ComboTree
