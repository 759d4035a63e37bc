import ComboTree.Collapse
import ComboTree.Proofs.Links
import ComboTree.Proofs.Rose

/-!
# A stored tree seen as an ordered tree

`labelled n` is what stands at and below `n`, as an ordered tree of labels.  Walks of the store are
walks of that tree, and where links agree even the paths, which are read upwards, are the ways of
that tree from its root.

## Key results

- `labelled_eq`, `childLabels_eq`: one step down
- `levels_eq`, `levelsFrom_eq_cons`, `tail_levels_eq`: the levels are walked from one frontier to the
  next
- `map_label?_levels`: the labels of each level
- `Linked.leafPaths_eq`: the paths of the leaves are the ways to the leaves
-/

namespace ComboTree.Tree

variable {t : Tree}

/-- What holds of a node when it holds of its children holds of every node. -/
theorem descending_induction {motive : Nat → Prop}
    (node : ∀ n, (∀ c ∈ t.children n, motive c) → motive n) (n : Nat) : motive n :=
  node n fun c hc =>
    have := mem_children_bounds hc
    descending_induction node c
termination_by t.size - n

/-! ## One step down -/

/-- The labels at and below `n`, in the shape of the tree. -/
def labelled (t : Tree) (n : Nat) : Rose String :=
  (t.subtree n).map t.labelAt

/-- One step down the tree of labels. -/
theorem labelled_eq (t : Tree) (n : Nat) :
    t.labelled n = .node (t.labelAt n) ((t.children n).map t.labelled) := by
  rw [labelled, subtree_eq, Rose.map_node, List.map_map]
  rfl

/-- The shape of a tree is what stands at and below its root. -/
theorem shape?_eq (t : Tree) : t.shape? = t.root?.map t.labelled := by
  rw [shape?, skeleton?, Option.map_map]
  rfl

/-- The root of a subtree is the node it was asked for. -/
theorem value_subtree (t : Tree) (n : Nat) : (t.subtree n).value = n := by
  rw [subtree_eq]
  rfl

/-- The root's label is that of the node. -/
theorem value_labelled (t : Tree) (n : Nat) : (t.labelled n).value = t.labelAt n := by
  rw [labelled, Rose.value_map, value_subtree]

/-- A list of known nodes has a label for each. -/
theorem filterMap_label? {ns : List Nat} (h : ∀ n ∈ ns, n < t.size) :
    ns.filterMap t.label? = ns.map t.labelAt := by
  rw [List.filterMap_congr fun n hn => label?_eq_some (h n hn)]
  exact congrFun List.filterMap_eq_map ns

/-- Every child has a label. -/
theorem childLabels_eq_map (t : Tree) (n : Nat) :
    t.childLabels n = (t.children n).map t.labelAt :=
  filterMap_label? fun _ hc => (mem_children_bounds hc).2

/-- The labels of the children are those one step down the tree of labels. -/
theorem childLabels_eq (t : Tree) (n : Nat) :
    t.childLabels n = (t.labelled n).children.map Rose.value := by
  rw [childLabels_eq_map, labelled_eq, Rose.children, List.map_map]
  simp only [Function.comp_def, value_labelled]

/-! ## Levels -/

/-- The levels that start with the nodes of `frontier`. -/
def levelsFrom (t : Tree) (frontier : List Nat) : List (List Nat) :=
  Rose.forestLevels (frontier.map t.subtree)

/-- From no node there are no levels. -/
@[simp] theorem levelsFrom_nil (t : Tree) : t.levelsFrom [] = [] := rfl

/-- The levels of a tree start with its root. -/
theorem levels_eq (t : Tree) : t.levels = t.levelsFrom t.root?.toList := by
  rw [levels, skeleton?]
  cases t.root? with
  | none => rfl
  | some n => exact (Rose.beside_nil _).symm

/-- After a frontier come the levels of its children. -/
theorem levelsFrom_eq_cons {frontier : List Nat} (h : frontier ≠ []) :
    t.levelsFrom frontier = frontier :: t.levelsFrom (frontier.flatMap t.children) := by
  -- the roots of the subtrees are the frontier, and what is below them hangs on their children
  have hvalue : (frontier.map t.subtree).map Rose.value = frontier := by
    simp only [List.map_map, Function.comp_def, value_subtree, List.map_id']
  have hbelow : (frontier.map t.subtree).flatMap Rose.children =
      (frontier.flatMap t.children).map t.subtree := by
    rw [List.flatMap_map, List.map_flatMap]
    refine List.flatMap_congr fun n _ => ?_
    rw [subtree_eq, Rose.children]
  rw [levelsFrom, Rose.forestLevels_eq_cons (by simpa using h), hvalue, hbelow]
  rfl

/-- Below the root the levels start with the root's children. -/
theorem tail_levels_eq (t : Tree) :
    t.levels.tail = t.levelsFrom (t.root?.toList.flatMap t.children) := by
  rw [levels_eq]
  cases t.root? with
  | none => rfl
  | some root =>
    rw [Option.toList_some, levelsFrom_eq_cons (List.cons_ne_nil root []), List.tail_cons]

/-- Below a known node there are known nodes only. -/
theorem lt_size_of_mem_preorder {m n : Nat} (hn : n < t.size) (h : m ∈ (t.subtree n).preorder) :
    m < t.size := by
  induction n using t.descending_induction with
  | node n ih =>
    rw [subtree_eq, Rose.preorder_node, List.mem_cons, List.flatMap_map] at h
    -- either the node itself, or one at or below a child, which is known
    rcases h with rfl | h
    · exact hn
    · obtain ⟨c, hc, h⟩ := List.mem_flatMap.1 h
      exact ih c hc (mem_children_bounds hc).2 h

/-- The labels of each level are the levels of the labels. -/
theorem map_label?_levels {root : Nat} (h : root < t.size) :
    (t.subtree root).levels.map (List.filterMap t.label?) = (t.labelled root).levels := by
  rw [labelled, Rose.map_levels]
  apply List.map_congr_left
  intro level hlevel
  apply filterMap_label?
  intro n hn
  -- the levels hold the same nodes as the pre-order, where each is known
  have hmem : n ∈ (t.subtree root).levels.flatten := List.mem_flatten.2 ⟨level, hlevel, hn⟩
  exact lt_size_of_mem_preorder h ((Rose.levels_perm_preorder _).subset hmem)

/-! ## Leaves -/

/-- The paths of the leaves at and below `n` go on from `n` along the ways to the leaves. -/
theorem Linked.leafPaths_subtree (hl : t.Linked) {n : Nat} (hn : n < t.size) :
    ((t.subtree n).preorder.filter t.isLeaf).filterMap t.path? =
      (t.labelled n).leafWays.map fun way =>
        PathStructure.ofSegments ((t.ancestors n).reverse.map t.labelAt ++ way) := by
  induction n using t.descending_induction with
  | node n ih =>
    rw [subtree_eq, labelled_eq, Rose.preorder_node, List.flatMap_map]
    by_cases hleaf : t.children n = []
    · -- the only leaf is `n` itself
      have hself : t.isLeaf n = true := by simp [isLeaf, hleaf]
      simp [hleaf, hself, Rose.leafWays_nil, path?_eq_some hn, lineage]
    · -- `n` itself is passed over, and below each child the way down starts one label longer
      have hself : t.isLeaf n = false := by simp [isLeaf, hleaf]
      have hchild : ∀ c ∈ t.children n,
          ((t.subtree c).preorder.filter t.isLeaf).filterMap t.path? =
            (t.labelled c).leafWays.map fun way => PathStructure.ofSegments
              ((t.ancestors n).reverse.map t.labelAt ++ t.labelAt n :: way) := by
        intro c hc
        rw [ih c hc (mem_children_bounds hc).2, hl.ancestors_child hc]
        simp
      rw [List.filter_cons_of_neg (by simp [hself]), List.filter_flatMap, List.filterMap_flatMap,
        List.flatMap_congr hchild, Rose.leafWays_of_ne_nil _ (by simpa using hleaf),
        List.flatMap_map, List.map_map, List.map_flatMap]
      rfl

/-- Where links agree, the paths of the leaves are the ways to the leaves, from left to right. -/
theorem Linked.leafPaths_eq (hl : t.Linked) (h : 0 < t.size) :
    t.leafPaths = (t.labelled 0).leafWays.map PathStructure.ofSegments := by
  have hroot : t.root? = some 0 := by rw [root?_eq, if_neg (by omega)]
  -- above the root there is nothing, so its ways are paths from the start
  have hsubtree := hl.leafPaths_subtree h
  rw [ancestors_zero] at hsubtree
  rw [leafPaths, preorder, skeleton?, hroot]
  exact hsubtree

end ComboTree.Tree
