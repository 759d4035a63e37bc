import ComboTree.Tree.Walk

/-!
# Whole-tree views

`subtree` reads the nodes below a handle off the child lists, as a `Rose` of handles; every
traversal of a tree is the traversal of that shape.

* `subtree_eq`  a subtree is its root over the subtrees of its children
-/

namespace ComboTree.Tree

/-- The handles of `n` and everything below it, in the shape of the tree. -/
def subtree (t : Tree) (n : Nat) : Rose Nat :=
  .node n ((t.children n).attach.map fun c => t.subtree c.1)
termination_by t.size - n
decreasing_by
  have := mem_children_bounds c.2
  omega

/-- A subtree is its root over the subtrees of its children, in order. -/
theorem subtree_eq (t : Tree) (n : Nat) :
    t.subtree n = .node n ((t.children n).map t.subtree) := by
  rw [subtree, List.attach_map_val (f := t.subtree)]

/-- The handles of all nodes, in the shape of the tree; none for the empty tree. -/
def skeleton? (t : Tree) : Option (Rose Nat) :=
  t.root?.map t.subtree

/-- The labels of all nodes, in the shape of the tree; none for the empty tree. -/
def shape? (t : Tree) : Option (Rose String) :=
  t.skeleton?.map (Rose.map fun n => (t.label? n).getD "")

/-- The nodes, each before those below it, children from left to right. -/
def preorder (t : Tree) : List Nat :=
  (t.skeleton?.map Rose.preorder).getD []

/-- The nodes of each depth, the root's first, each level from left to right. -/
def levels (t : Tree) : List (List Nat) :=
  (t.skeleton?.map Rose.levels).getD []

/-- The nodes level by level. -/
def breadthFirst (t : Tree) : List Nat :=
  t.levels.flatten

/-- The number of levels. -/
def depth (t : Tree) : Nat :=
  (t.skeleton?.map Rose.height).getD 0

/-- Whether `n` has no children. -/
def isLeaf (t : Tree) (n : Nat) : Bool :=
  (t.children n).isEmpty

/-- The paths of the nodes without children, from left to right. -/
def leafPaths (t : Tree) : List String :=
  (t.preorder.filter t.isLeaf).filterMap t.path?

/-- The tree drawn for a terminal, one line per node, each line ended. -/
def render (t : Tree) : String :=
  let lines := (t.shape?.map (Rose.drawing "" "")).getD ["Empty tree"]
  String.join (lines.map (· ++ "\n"))

end ComboTree.Tree
