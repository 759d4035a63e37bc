import ComboTree.PathStructure
import ComboTree.Tree.Rose

/-!
# Trees of labelled nodes

A `Tree` keeps its nodes in the order in which they were added, and a node's handle is its
position in that order, the root's being `0`.  A node knows its label, its parent and its children
in order.  Nodes are only ever added, so a handle stays valid; a handle from elsewhere may name no
node, or another node, of this tree.

Two facts are kept in the type, because they make every walk end: a parent comes before its
children, and a child after its parent.  That the two links agree is a property of the operations
`empty`, `ofRoot` and `addChildren`, not of the type.

* `size_addChildren`  a block of labels below a known node adds one node per label
* `node?_addChildren_of_lt`  the nodes that were there keep label and parent; the parent's list of
  children is continued
* `node?_addChildren_of_le`  the new nodes are leaves below the parent, in the order of the labels
* `addChildren_of_not_lt`  below an unknown node nothing is added
-/

namespace ComboTree

/-- A node as it is stored. -/
structure Node where
  label : String
  parent : Option Nat
  children : List Nat
deriving DecidableEq, Repr, Inhabited

/-- A node without children. -/
def Node.leaf (parent : Option Nat) (label : String) : Node :=
  { label, parent, children := [] }

/-- The same node with more children after those it has. -/
def Node.adopt (node : Node) (handles : List Nat) : Node :=
  { node with children := node.children ++ handles }

/-- Nodes in order of insertion, parents before children. -/
structure Tree where
  nodes : Array Node
  parent_lt : ∀ n (h : n < nodes.size), ∀ p ∈ nodes[n].parent, p < n
  child_bounds : ∀ n (h : n < nodes.size), ∀ c ∈ nodes[n].children, n < c ∧ c < nodes.size

namespace Tree

/-- The tree without nodes. -/
def empty : Tree where
  nodes := #[]
  parent_lt := by simp
  child_bounds := by simp

instance : Inhabited Tree := ⟨empty⟩

/-- The tree that is a root and nothing else. -/
def ofRoot (label : String) : Tree where
  nodes := #[.leaf none label]
  parent_lt := by simp [Node.leaf]
  child_bounds := by simp [Node.leaf]

/-- Trees are equal when their stores are. -/
@[ext] theorem ext {t u : Tree} (h : t.nodes = u.nodes) : t = u := by
  cases t; cases u; cases h; rfl

/-! ## Reading -/

/-- The number of nodes. -/
def size (t : Tree) : Nat := t.nodes.size

/-- Whether there is no node. -/
def isEmpty (t : Tree) : Bool := t.nodes.isEmpty

/-- Whether `n` names a node of the tree. -/
def contains (t : Tree) (n : Nat) : Bool := n < t.size

/-- The node that `n` names. -/
def node? (t : Tree) (n : Nat) : Option Node := t.nodes[n]?

/-- The root's handle, unless the tree is empty. -/
def root? (t : Tree) : Option Nat := if t.isEmpty then none else some 0

/-- The label of `n`. -/
def label? (t : Tree) (n : Nat) : Option String := (t.node? n).map Node.label

/-- The parent of `n`; the root has none. -/
def parent? (t : Tree) (n : Nat) : Option Nat := (t.node? n).bind Node.parent

/-- The children of `n` in order; an unknown node has none. -/
def children (t : Tree) (n : Nat) : List Nat := ((t.node? n).map Node.children).getD []

/-- The labels of the children of `n`, in order. -/
def childLabels (t : Tree) (n : Nat) : List String := (t.children n).filterMap t.label?

/-- The first child of `n` with this label. -/
def findChild? (t : Tree) (n : Nat) (label : String) : Option Nat :=
  (t.children n).find? fun c => t.label? c = some label

/-- A handle names a node exactly if it is a position of the store. -/
theorem node?_eq_some_iff {t : Tree} {n : Nat} {node : Node} :
    t.node? n = some node ↔ ∃ h : n < t.size, t.nodes[n] = node :=
  Array.getElem?_eq_some_iff

/-- A parent was added before its children. -/
theorem parent?_lt {t : Tree} {n p : Nat} (h : t.parent? n = some p) : p < n := by
  obtain ⟨node, hn, hp⟩ := Option.bind_eq_some_iff.1 h
  obtain ⟨hlt, rfl⟩ := node?_eq_some_iff.1 hn
  exact t.parent_lt n hlt p hp

/-- A child was added after its parent and is in the tree. -/
theorem mem_children_bounds {t : Tree} {n c : Nat} (h : c ∈ t.children n) :
    n < c ∧ c < t.size := by
  unfold children at h
  cases hn : t.node? n with
  | none => simp [hn] at h
  | some node =>
    obtain ⟨hlt, rfl⟩ := node?_eq_some_iff.1 hn
    exact t.child_bounds n hlt c (by simpa [hn] using h)

/-! ## Adding -/

/-- New leaves after the last node, one per label, as the last children of `parent`.  A parent
that is not in the tree gets none. -/
def addChildren (t : Tree) (parent : Nat) (labels : List String) : Tree :=
  if hp : parent < t.nodes.size then
    { nodes := t.nodes.modify parent (·.adopt (List.range' t.nodes.size labels.length)) ++
        (labels.map (Node.leaf (some parent))).toArray
      parent_lt := by
        -- an old node keeps its parent; a new leaf has the parent that was asked for
        intro n hn p h
        rw [Array.getElem_append] at h
        split at h
        · rename_i hlt
          rw [Array.size_modify] at hlt
          rw [Array.getElem_modify] at h
          split at h <;> exact t.parent_lt n hlt p h
        · rename_i hge
          simp only [Array.size_modify, Nat.not_lt] at hge
          simp [Node.leaf] at h
          omega
      child_bounds := by
        -- only the parent's list of children grows, by the handles of the new leaves
        intro n hn c h
        simp only [Array.size_append, Array.size_modify, List.size_toArray, List.length_map]
        rw [Array.getElem_append] at h
        split at h
        · rename_i hlt
          rw [Array.size_modify] at hlt
          rw [Array.getElem_modify] at h
          have old := t.child_bounds n hlt c
          split at h
          · simp only [Node.adopt, List.mem_append, List.mem_range'_1] at h
            rcases h with h | h
            · have := old h
              omega
            · omega
          · have := old h
            omega
        · simp [Node.leaf] at h }
  else
    t

/-- Below an unknown node nothing is added. -/
theorem addChildren_of_not_lt {t : Tree} {parent : Nat} (h : ¬ parent < t.size)
    (labels : List String) : t.addChildren parent labels = t := by
  simp only [size] at h
  simp [addChildren, h]

/-- One node is added per label. -/
theorem size_addChildren {t : Tree} {parent : Nat} (h : parent < t.size)
    (labels : List String) : (t.addChildren parent labels).size = t.size + labels.length := by
  simp only [size] at h
  simp [addChildren, size, h]

/-- A node that was there stays as it was, the parent apart, whose children are continued by the
new handles. -/
theorem node?_addChildren_of_lt {t : Tree} {parent n : Nat} (h : parent < t.size)
    (hn : n < t.size) (labels : List String) :
    (t.addChildren parent labels).node? n =
      (t.node? n).map fun node =>
        if n = parent then node.adopt (List.range' t.size labels.length) else node := by
  simp only [size] at h hn
  simp only [addChildren, node?, size, dif_pos h]
  rw [Array.getElem?_append_left (by simpa using hn), Array.getElem?_modify]
  by_cases e : parent = n <;> simp [e, eq_comm]

/-- The new nodes are leaves below the parent, in the order of the labels. -/
theorem node?_addChildren_of_le {t : Tree} {parent : Nat} (h : parent < t.size)
    (labels : List String) (i : Nat) :
    (t.addChildren parent labels).node? (t.size + i) =
      labels[i]?.map (Node.leaf (some parent)) := by
  simp only [size] at h
  simp only [addChildren, node?, size, dif_pos h]
  rw [Array.getElem?_append_right (by simp)]
  simp

/-- A node that was there keeps its label. -/
theorem label?_addChildren_of_lt {t : Tree} {parent n : Nat} (h : parent < t.size)
    (hn : n < t.size) (labels : List String) :
    (t.addChildren parent labels).label? n = t.label? n := by
  rw [label?, label?, node?_addChildren_of_lt h hn, Option.map_map]
  congr 1
  funext node
  simp only [Function.comp_apply]
  split <;> rfl

/-- A node that was there keeps its parent. -/
theorem parent?_addChildren_of_lt {t : Tree} {parent n : Nat} (h : parent < t.size)
    (hn : n < t.size) (labels : List String) :
    (t.addChildren parent labels).parent? n = t.parent? n := by
  rw [parent?, parent?, node?_addChildren_of_lt h hn, Option.bind_map]
  congr 1
  funext node
  simp only [Function.comp_apply]
  split <;> rfl

/-- A node that was there keeps its children in order; the parent has the new ones after them. -/
theorem children_addChildren_of_lt {t : Tree} {parent n : Nat} (h : parent < t.size)
    (hn : n < t.size) (labels : List String) :
    (t.addChildren parent labels).children n =
      if n = parent then t.children n ++ List.range' t.size labels.length
      else t.children n := by
  have hnode : t.node? n = some t.nodes[n] := node?_eq_some_iff.2 ⟨hn, rfl⟩
  simp only [children, node?_addChildren_of_lt h hn, hnode, Option.map_some, Option.getD_some]
  split <;> rfl

/-- One new leaf as the last child of `parent`, with its handle. -/
def addChild? (t : Tree) (parent : Nat) (label : String) : Option (Nat × Tree) :=
  if parent < t.size then some (t.size, t.addChildren parent [label]) else none

end Tree

end ComboTree
