import ComboTree.Collapse
import ComboTree.Proofs.Ways
import Mathlib.Logic.Equiv.Defs

/-!
# The same tree under other handles

A handle is the place of a node in the order of insertion, so two trees can hold the same nodes under
different handles.  `Renumbers` says that a permutation of the handles takes the one store to the
other: root to root, and each node to one with the same label and the renumbered links.

No answer of a tree in terms of labels, paths or texts shows the handles.  Each walk of a renumbered
tree is the renumbered walk, upwards along parents, downwards in pre-order and by levels; what is
read off it is the same.

## Key results

- `Renumbers.subtree_eq`, `Renumbers.ancestors_eq`: the walks down and up
- `Renumbers.shape?_eq`, `Renumbers.render_eq`: the ordered tree of labels, and its drawing
- `Renumbers.leafPaths_eq`: the paths of the leaves
- `Renumbers.collapse_eq`: the path structure of a tree, or the fault for it
-/

namespace ComboTree

/-- The same node with other handles in its links. -/
def Node.renumber (σ : Nat → Nat) (node : Node) : Node :=
  { node with parent := node.parent.map σ, children := node.children.map σ }

namespace Tree

/-- The tree `u` is `t` with the handle `σ n` in place of each handle `n`. -/
structure Renumbers (t u : Tree) (σ : Equiv.Perm Nat) : Prop where
  root?_eq : u.root? = t.root?.map σ
  node?_eq : ∀ n, u.node? (σ n) = (t.node? n).map (Node.renumber σ)

namespace Renumbers

variable {t u : Tree} {σ : Equiv.Perm Nat}

/-! ## One node -/

/-- A renumbered node has the label that it had. -/
theorem label?_eq (h : t.Renumbers u σ) (n : Nat) : u.label? (σ n) = t.label? n := by
  rw [label?, h.node?_eq, Option.map_map]
  rfl

/-- Its parent is the renumbered one. -/
theorem parent?_eq (h : t.Renumbers u σ) (n : Nat) :
    u.parent? (σ n) = (t.parent? n).map σ := by
  rw [parent?, h.node?_eq, parent?]
  cases t.node? n <;> rfl

/-- Its children are the renumbered ones, in the same order. -/
theorem children_eq (h : t.Renumbers u σ) (n : Nat) :
    u.children (σ n) = (t.children n).map σ := by
  rw [children, h.node?_eq, children]
  cases t.node? n <;> rfl

/-- Unknown handles stay unknown. -/
theorem contains_eq (h : t.Renumbers u σ) (n : Nat) : u.contains (σ n) = t.contains n := by
  rw [Bool.eq_iff_iff, contains_iff, contains_iff, ← label?_isSome_iff, ← label?_isSome_iff,
    h.label?_eq]

/-- A renumbered list of nodes has the labels that it had. -/
theorem filterMap_label?_map (h : t.Renumbers u σ) (ns : List Nat) :
    (ns.map σ).filterMap u.label? = ns.filterMap t.label? := by
  rw [List.filterMap_map]
  exact List.filterMap_congr fun n _ => h.label?_eq n

/-- The labels below a node do not show the handles. -/
theorem childLabels_eq (h : t.Renumbers u σ) (n : Nat) :
    u.childLabels (σ n) = t.childLabels n := by
  rw [childLabels, h.children_eq, h.filterMap_label?_map, childLabels]

/-- A node without children stays one. -/
theorem isLeaf_eq (h : t.Renumbers u σ) (n : Nat) : u.isLeaf (σ n) = t.isLeaf n := by
  rw [isLeaf, h.children_eq, List.isEmpty_map, isLeaf]

/-! ## Down -/

/-- What is below a node is renumbered as a whole. -/
theorem subtree_eq (h : t.Renumbers u σ) (n : Nat) :
    u.subtree (σ n) = (t.subtree n).map σ := by
  -- children come after their parent in `t`, which is all that the recursion needs
  induction n using t.descending_induction with
  | node n ih =>
    rw [Tree.subtree_eq, Tree.subtree_eq t, h.children_eq, Rose.map_node, List.map_map,
      List.map_map]
    congr 1
    apply List.map_congr_left
    intro c hc
    exact ih c hc

/-- The shape of the tree is that of the other, renumbered. -/
theorem skeleton?_eq (h : t.Renumbers u σ) : u.skeleton? = t.skeleton?.map (Rose.map σ) := by
  rw [skeleton?, h.root?_eq, skeleton?, Option.map_map, Option.map_map]
  congr 1
  funext n
  exact h.subtree_eq n

/-- The labels in the shape of the tree are the same. -/
theorem shape?_eq (h : t.Renumbers u σ) : u.shape? = t.shape? := by
  -- the renumbering and the look-up of labels cancel at every node
  have hlabels : (fun n => (u.label? n).getD "") ∘ σ = fun n => (t.label? n).getD "" := by
    funext n
    rw [Function.comp_apply, h.label?_eq]
  rw [shape?, h.skeleton?_eq, Option.map_map, shape?]
  congr 1
  funext r
  rw [Function.comp_apply, Rose.map_map, hlabels]

/-- So is the drawing. -/
theorem render_eq (h : t.Renumbers u σ) : u.render = t.render := by
  rw [render, h.shape?_eq, render]

/-- The nodes are met in the renumbered order. -/
theorem preorder_eq (h : t.Renumbers u σ) : u.preorder = t.preorder.map σ := by
  rw [preorder, h.skeleton?_eq, preorder]
  cases t.skeleton? with
  | none => rfl
  | some r => exact r.map_preorder σ

/-- Each level is the renumbered one. -/
theorem levels_eq (h : t.Renumbers u σ) : u.levels = t.levels.map (List.map σ) := by
  rw [levels, h.skeleton?_eq, levels]
  cases t.skeleton? with
  | none => rfl
  | some r => exact r.map_levels σ

/-! ## Up -/

/-- The way up from a renumbered node is the renumbered way. -/
theorem ancestors_eq (h : t.Renumbers u σ) (n : Nat) :
    u.ancestors (σ n) = (t.ancestors n).map σ := by
  -- the handles of `t` grow on the way down, whatever those of `u` do
  induction n using Nat.strongRecOn with
  | _ n ih =>
    have hparent := h.parent?_eq n
    cases hp : t.parent? n with
    | none =>
      rw [hp] at hparent
      rw [ancestors_eq_nil hp, ancestors_eq_nil hparent, List.map_nil]
    | some p =>
      rw [hp] at hparent
      rw [ancestors_eq_cons hp, ancestors_eq_cons hparent, ih p (parent?_lt hp), List.map_cons]

/-- The path of a node is the same. -/
theorem path?_eq (h : t.Renumbers u σ) (n : Nat) : u.path? (σ n) = t.path? n := by
  have hlineage : u.lineage (σ n) = (t.lineage n).map σ := by
    rw [lineage, lineage, h.ancestors_eq, List.map_reverse, List.map_cons]
  rw [path?, h.contains_eq, hlineage, h.filterMap_label?_map, path?]

/-- The leaves have the same paths, in the same order. -/
theorem leafPaths_eq (h : t.Renumbers u σ) : u.leafPaths = t.leafPaths := by
  -- which nodes are leaves, and what their paths are, is asked of renumbered nodes
  have hleaf : u.isLeaf ∘ σ = t.isLeaf := funext h.isLeaf_eq
  have hpath : u.path? ∘ σ = t.path? := funext h.path?_eq
  rw [leafPaths, h.preorder_eq, List.filter_map, List.filterMap_map, hleaf, hpath, leafPaths]

/-! ## Collapsing -/

/-- The tokens of a level depend on its labels alone. -/
theorem levelTokens_eq (h : t.Renumbers u σ) (level : List Nat) :
    u.levelTokens (level.map σ) = t.levelTokens level := by
  rw [levelTokens, h.filterMap_label?_map, levelTokens]

/-- The divergent node of a level stays the one that diverges. -/
theorem divergent?_eq (h : t.Renumbers u σ) (level : List Nat) :
    u.divergent? (level.map σ) = (t.divergent? level).map σ := by
  cases level with
  | nil => rfl
  | cons first rest =>
    rw [List.map_cons, divergent?, divergent?, h.childLabels_eq, List.find?_map]
    simp only [Function.comp_def, h.childLabels_eq]

/-- The first uneven depth is the same, and so is the node that shows it. -/
theorem firstUneven?_eq (h : t.Renumbers u σ) :
    u.firstUneven? = t.firstUneven?.map fun found => (found.1, σ found.2) := by
  -- the search goes through renumbered levels, and depths are counted as before
  rw [firstUneven?, h.levels_eq, ← List.map_tail, List.zipIdx_map, List.findSome?_map,
    firstUneven?, List.map_findSome?]
  congr 1
  funext level
  simp only [Function.comp_apply, Prod.map, id, h.divergent?_eq, Option.map_map]
  rfl

/-- The lists of tokens are the same, and so is the node that a fault names, by its path. -/
theorem collapseLevels_eq (h : t.Renumbers u σ) (validate : Bool) :
    u.collapseLevels validate = t.collapseLevels validate := by
  have htokens : u.levels.tail.map u.levelTokens = t.levels.tail.map t.levelTokens := by
    rw [h.levels_eq, ← List.map_tail, List.map_map]
    apply List.map_congr_left
    intro level _
    exact h.levelTokens_eq level
  rw [collapseLevels, collapseLevels, h.firstUneven?_eq, htokens]
  cases validate with
  | false => rfl
  | true =>
    cases t.firstUneven? with
    | none => rfl
    | some found => simp [h.path?_eq]

/-- The two trees collapse to one path structure, or are refused with one fault. -/
theorem collapse_eq (h : t.Renumbers u σ) (validate : Bool) :
    u.collapse validate = t.collapse validate := by
  rw [collapse, h.root?_eq, h.collapseLevels_eq, collapse]
  cases t.root? with
  | none => rfl
  | some root => simp only [Option.map_some, h.label?_eq]

end Renumbers

end Tree

end ComboTree
