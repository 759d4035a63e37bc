import ComboTree.Proofs.Reachable
import ComboTree.Proofs.Ways

/-!
# A tree only grows

Calls add nodes and nothing else.  A look-up takes the first child with each label, and a later
child with the same label could only come before it if children were inserted anywhere but at the
end of their list; so what was found once is found by every later look-up.

`Retains` says this for everything that a tree answers about its nodes.  The step is one block of
children (`grows_addChildren`), and a run is any number of calls, failing ones among them.

## Key results

- `Grows.height_le`, `Grows.depth_le`: a tree does not become lower
- `grows_apply`, `grows_afterEdits`: one call, and any run of calls
- `afterEdits_retains`: what a run of calls keeps
-/

namespace ComboTree.Tree

variable {t u : Tree}

/-! ## Depth -/

/-- Every child of `n` is still one, and below it the tree has not become lower. -/
theorem Grows.height_le (h : t.Grows u) (n : Nat) :
    (t.subtree n).height ≤ (u.subtree n).height := by
  induction n using t.descending_induction with
  | node n ih =>
    -- the children of `n` in `t` are lower than `n` is in `u`, where they are among its children
    have hchild : ∀ s ∈ (t.children n).map t.subtree, s.height ≤ (u.subtree n).height - 1 := by
      intro s hs
      obtain ⟨c, hc, rfl⟩ := List.mem_map.1 hs
      have hle := ih c hc
      have hmem : u.subtree c ∈ (u.children n).map u.subtree :=
        List.mem_map_of_mem ((h.children_prefix n).subset hc)
      have hlt := Rose.height_lt_of_mem hmem n
      rw [← subtree_eq] at hlt
      omega
    -- `n` itself adds one to the height in both trees
    have hpos : 0 < (u.subtree n).height := by
      rw [subtree_eq, Rose.height_node]
      omega
    have hnode := Rose.height_node_le hchild n
    rw [← subtree_eq] at hnode
    omega

/-- The depth of a tree is the height of what is below its first node. -/
theorem depth_eq (t : Tree) : t.depth = if t.size = 0 then 0 else (t.subtree 0).height := by
  rw [depth, skeleton?, root?_eq]
  split <;> rfl

/-- A grown tree is not lower. -/
theorem Grows.depth_le (h : t.Grows u) : t.depth ≤ u.depth := by
  have hsize := h.size_le
  have hheight := h.height_le 0
  rw [depth_eq, depth_eq]
  -- the empty tree has depth zero; any other keeps its first node
  split
  · exact Nat.zero_le _
  · rw [if_neg (by omega)]
    exact hheight

/-! ## Paths and ancestors -/

/-- An old node keeps its path. -/
theorem Grows.path?_eq (h : t.Grows u) {n : Nat} (hn : n < t.size) : u.path? n = t.path? n := by
  have hsize := h.size_le
  rw [path?_eq_way hn, path?_eq_way (by omega), h.way_eq hn]

/-- What was above an old node is above it, and nothing else is. -/
theorem Grows.isAncestor_eq (h : t.Grows u) (a : Nat) {n : Nat} (hn : n < t.size) :
    u.isAncestor a n = t.isAncestor a n := by
  rw [isAncestor, isAncestor, h.ancestors_eq hn]

/-! ## Calls -/

/-- The step: a call makes a tree grow, or leaves it as it is. -/
theorem grows_apply (t : Tree) (e : Edit) : t.Grows (e.apply t) := by
  obtain ⟨parent, labels, he⟩ := exists_addChildren_eq_apply t e
  rw [he]
  exact grows_addChildren t parent labels

/-- The run: calls in a row make a tree grow. -/
theorem grows_afterEdits (t : Tree) (edits : List Edit) : t.Grows (t.afterEdits edits) := by
  induction edits generalizing t with
  | nil => exact Grows.refl t
  | cons e edits ih => exact (grows_apply t e).trans (ih (e.apply t))

/-- All that `t` answers about its nodes is what `u` answers about them, but for children that `u`
lists after those that `t` has. -/
structure Retains (t u : Tree) : Prop where
  size_le : t.size ≤ u.size
  depth_le : t.depth ≤ u.depth
  contains : ∀ n, t.contains n → u.contains n
  label?_eq : ∀ n, t.contains n → u.label? n = t.label? n
  parent?_eq : ∀ n, t.contains n → u.parent? n = t.parent? n
  path?_eq : ∀ n, t.contains n → u.path? n = t.path? n
  children_prefix : ∀ n, t.contains n → t.children n <+: u.children n
  isAncestor_eq : ∀ a n, t.contains a → t.contains n → u.isAncestor a n = t.isAncestor a n
  findChild? : ∀ n label c, t.findChild? n label = some c → u.findChild? n label = some c
  nodeAtPath? : ∀ path n, t.nodeAtPath? path = some n → u.nodeAtPath? path = some n

/-- Growing is enough to keep every answer. -/
theorem Grows.retains (h : t.Grows u) : t.Retains u where
  size_le := h.size_le
  depth_le := h.depth_le
  contains := by
    intro n hn
    have hsize := h.size_le
    rw [contains_iff] at hn ⊢
    omega
  label?_eq := fun n hn => h.label?_eq (contains_iff.1 hn)
  parent?_eq := fun n hn => h.parent?_eq (contains_iff.1 hn)
  path?_eq := fun n hn => h.path?_eq (contains_iff.1 hn)
  children_prefix := fun n _ => h.children_prefix n
  isAncestor_eq := fun a n _ hn => h.isAncestor_eq a (contains_iff.1 hn)
  findChild? := fun _ _ _ hc => h.findChild? hc
  nodeAtPath? := fun _ _ hn => h.nodeAtPath? hn

/-- Whatever calls are made on a tree, with whatever handles, paths and policies, and whether they
fail or not: each node of the tree stays with its label, its parent and its path, its children stay
the first ones in their order, ancestors stay the same, and each look-up that found a node finds the
same node again.  The tree gets neither smaller nor lower. -/
theorem afterEdits_retains (t : Tree) (edits : List Edit) : t.Retains (t.afterEdits edits) :=
  (grows_afterEdits t edits).retains

end ComboTree.Tree
