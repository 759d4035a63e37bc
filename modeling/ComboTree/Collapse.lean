import ComboTree.Combination
import ComboTree.Tree.Traversal

/-!
# Collapsing a tree into a path structure

Collapsing lists, for each depth below the root, the tokens that the labels of that depth are made
of, and writes them as a path structure.  For an expanded tree this undoes the expansion, up to
the order of the alternatives.

A tree in which two nodes of one depth have different children is no expansion.  Collapsing with
validation refuses it and names the first node that differs from the first of its depth; without
validation every tree collapses.
-/

namespace ComboTree.Tree

open PathStructure (serialize)

/-- The tokens that the labels of `level` are made of, in the order of their first occurrences. -/
def levelTokens (t : Tree) (level : List Nat) : List String :=
  ((level.filterMap t.label?).flatMap Combination.labelTokens).eraseDups

/-- The first node of `level` whose child labels are not those of the leftmost one, in order. -/
def divergent? (t : Tree) : List Nat → Option Nat
  | [] => none
  | first :: rest =>
    let expected := t.childLabels first
    rest.find? fun n => t.childLabels n ≠ expected

/-- The shallowest depth below the root that is uneven, with the node that shows it. -/
def firstUneven? (t : Tree) : Option (Nat × Nat) :=
  (t.levels.tail.zipIdx 1).findSome? fun (level, depth) =>
    (t.divergent? level).map fun n => (depth, n)

/-- The tokens of each depth below the root. -/
def collapseLevels (t : Tree) (validate : Bool) : Except Fault (List (List String)) :=
  match if validate then t.firstUneven? else none with
  | some (depth, n) => .error (.unevenLevel depth ((t.path? n).getD ""))
  | none => .ok (t.levels.tail.map t.levelTokens)

/-- The path structure of a tree; a lone slash for the empty tree. -/
def collapse (t : Tree) (validate : Bool) : Except Fault String :=
  match t.root? with
  | none => .ok (String.singleton PathStructure.levelSeparator)
  | some root => do
    let levels ← t.collapseLevels validate
    return serialize ((t.label? root).getD "") levels

end ComboTree.Tree
