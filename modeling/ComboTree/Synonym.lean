import ComboTree.Tree.Traversal

/-!
# Synonyms

A synonym of a reference node is another node whose children have the same labels, counted with
multiplicity and in any order.  A `SynonymRule` says which nodes do not count as another one.  Of
all synonyms the shallowest is chosen, and of those the leftmost.
-/

namespace ComboTree

/-- Which nodes are left out of the search. -/
inductive SynonymRule where
  /-- Every node labelled like the reference. -/
  | distinctLabel
  /-- The reference alone. -/
  | distinctNode
  /-- The reference and everything above and below it. -/
  | distinctLineage
deriving DecidableEq, Repr, Inhabited

namespace SynonymRule

/-- The name of a rule in settings. -/
def name : SynonymRule → String
  | distinctLabel => "distinct-label"
  | distinctNode => "distinct-node"
  | distinctLineage => "distinct-lineage"

/-- The rule with this name. -/
def ofName? (text : String) : Option SynonymRule :=
  [distinctLabel, distinctNode, distinctLineage].find? fun rule => rule.name = text

/-- A rule is found again under its name. -/
theorem ofName?_name (rule : SynonymRule) : ofName? rule.name = some rule := by
  cases rule <;> decide

/-- Whether `candidate` is left out of a search for synonyms of `reference`. -/
def excludes (rule : SynonymRule) (t : Tree) (reference candidate : Nat) : Bool :=
  match rule with
  | distinctLabel => t.label? candidate = t.label? reference
  | distinctNode => candidate = reference
  | distinctLineage =>
    candidate = reference || t.isAncestor candidate reference || t.isAncestor reference candidate

end SynonymRule

/-- Whether two lists hold the same texts, each as often. -/
def sameContent (left right : List String) : Bool :=
  left.length = right.length && left.mergeSort (· ≤ ·) = right.mergeSort (· ≤ ·)

namespace Tree

/-- The path of the first synonym of `reference` in breadth-first order; none if there is none,
or no such reference. -/
def findSynonym? (t : Tree) (rule : SynonymRule) (reference : Nat) : Option String :=
  if t.contains reference then
    let wanted := t.childLabels reference
    (t.breadthFirst.find? fun n =>
      !rule.excludes t reference n && sameContent (t.childLabels n) wanted).bind t.path?
  else
    none

/-- `findSynonym?` for the node that a path leads to. -/
def findSynonymByPath (t : Tree) (rule : SynonymRule) (reference : String) :
    Except Fault (Option String) :=
  match t.nodeAtPath? reference with
  | some n => .ok (t.findSynonym? rule n)
  | none => .error (.nodeNotFound reference)

end Tree

end ComboTree
