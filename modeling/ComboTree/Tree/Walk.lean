import ComboTree.Tree.Basic

/-!
# Ways through a tree

Upwards: `ancestors` follows the parent links of a node, and `path?` writes the labels met on the
way as `/root/.../label`.  Downwards: `nodeAtPath?` takes the labels of a path one by one and goes
to the first child with each, without ever going back; `follow` also says where the way ends.

* `ancestors_eq_cons`  the ancestors of a node are its parent and that node's ancestors
* `lt_of_mem_ancestors`  an ancestor comes earlier in the order of insertion
-/

namespace ComboTree.Tree

open Text (pieces)
open PathStructure (levelSeparator)

/-- The nodes on the way from the parent of `n` up to the root; none for an unknown node. -/
def ancestors (t : Tree) (n : Nat) : List Nat :=
  match h : t.parent? n with
  | none => []
  | some p =>
    have := parent?_lt h
    p :: t.ancestors p
termination_by n

/-- A node without a parent has no ancestors. -/
theorem ancestors_eq_nil {t : Tree} {n : Nat} (h : t.parent? n = none) : t.ancestors n = [] := by
  rw [ancestors]
  split <;> simp_all

/-- The ancestors of a node are its parent and that node's ancestors. -/
theorem ancestors_eq_cons {t : Tree} {n p : Nat} (h : t.parent? n = some p) :
    t.ancestors n = p :: t.ancestors p := by
  rw [ancestors]
  split <;> simp_all

/-- An ancestor comes earlier in the order of insertion. -/
theorem lt_of_mem_ancestors {t : Tree} {n a : Nat} (h : a ∈ t.ancestors n) : a < n := by
  fun_induction ancestors t n with
  | case1 => simp at h
  -- the parent comes earlier, and its own ancestors earlier still
  | case2 n p hp hlt ih =>
    rcases List.mem_cons.1 h with rfl | h
    · exact hlt
    · exact Nat.lt_trans (ih h) hlt

/-- Whether `ancestor` lies above `n`; a node does not lie above itself. -/
def isAncestor (t : Tree) (ancestor n : Nat) : Bool :=
  (t.ancestors n).contains ancestor

/-- The nodes on the way from the root down to `n`, both included. -/
def lineage (t : Tree) (n : Nat) : List Nat :=
  (n :: t.ancestors n).reverse

/-- The labels on the way from the root down to `n`, each after a slash. -/
def path? (t : Tree) (n : Nat) : Option String :=
  if t.contains n then
    some (PathStructure.ofSegments ((t.lineage n).filterMap t.label?))
  else
    none

/-- Where the labels lead from `n`, always taking the first child with the next label. -/
def descend? (t : Tree) (n : Nat) (labels : List String) : Option Nat :=
  labels.foldlM t.findChild? n

/-- Where the labels lead from `n`, or the first label that no child has. -/
def follow (t : Tree) (n : Nat) (labels : List String) : Except String Nat :=
  labels.foldlM (fun n label => (t.findChild? n label).elim (.error label) .ok) n

/-- The node that a path leads to, the first label of which must be the root's. -/
def nodeAtPath? (t : Tree) (path : String) : Option Nat :=
  match pieces levelSeparator path with
  | "" :: rootLabel :: labels => do
    let root ← t.root?
    if t.label? root = some rootLabel then t.descend? root labels else none
  | _ => none

end ComboTree.Tree
