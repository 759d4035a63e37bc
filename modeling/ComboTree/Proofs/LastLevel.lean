import ComboTree.Proofs.Lookup

/-!
# The last level, at once or leaf by leaf

Expanding a path structure with one level more hangs that level below every leaf.  Inserting the
level below the path of each leaf in turn does the same: in the strict form of the notation a path
leads back to its leaf, also while other leaves have their children already, and the leaves are
listed in the order in which an expansion comes to them.

## Key results

- `attachLevels_concat`, `leaves_attachLevels`: the last level hangs below the leaves, in order
- `insertAll_eq_attachLevel`: inserting below the given nodes one after the other
- `expandLevels_concat`: if a level more expands, then the levels without it do
- `insertAll_leafPaths`: both ways make the same tree
-/

namespace ComboTree

open PathStructure (IsToken ofSegments alternativeSeparator)
open Text (pieces)

namespace Tree

variable {t : Tree}

/-! ## At once -/

/-- The nodes that were attached last, below which one level more would hang. -/
def lastLevel (t : Tree) (frontier : List Nat) : List (List String) → List Nat
  | [] => frontier
  | labels :: rest =>
    (t.attachLevel frontier labels).lastLevel
      (List.range' t.size (frontier.length * labels.length)) rest

/-- The last of several levels is attached to the nodes that the others have made last. -/
theorem attachLevels_concat (t : Tree) (frontier : List Nat) (choices : List (List String))
    (labels : List String) : t.attachLevels frontier (choices ++ [labels]) =
      (t.attachLevels frontier choices).attachLevel (t.lastLevel frontier choices) labels := by
  -- from the top: each level moves tree and frontier on together
  induction choices generalizing t frontier with
  | nil => rfl
  | cons choice rest ih => exact ih _ _

/-- From left to right, the leaves below consecutive last nodes are the nodes attached last. -/
theorem leaves_attachLevels {s m : Nat} (h : s + m = t.size)
    (hleaf : ∀ n, s ≤ n → t.children n = []) {choices : List (List String)}
    (hne : ∀ choice ∈ choices, choice ≠ []) :
    ((List.range' s m).flatMap fun n =>
        ((t.attachLevels (List.range' s m) choices).subtree n).preorder).filter
          (t.attachLevels (List.range' s m) choices).isLeaf =
      t.lastLevel (List.range' s m) choices := by
  -- the frontier is the nodes `s, …, s + m - 1`, and the next one starts at the size of the tree
  induction choices generalizing t s m with
  | nil =>
    -- nothing hangs below the frontier, which is then one of leaves
    have hself : ∀ n ∈ List.range' s m, (t.subtree n).preorder = [n] := by
      intro n hn
      rw [subtree_eq, hleaf n (List.mem_range'_1.1 hn).1, Rose.preorder_node]
      rfl
    have hisLeaf : ∀ n ∈ List.range' s m, t.isLeaf n = true := by
      intro n hn
      rw [isLeaf, hleaf n (List.mem_range'_1.1 hn).1]
      rfl
    rw [attachLevels, lastLevel, List.flatMap_congr hself, List.flatMap_singleton',
      List.filter_eq_self.2 hisLeaf]
  | cons labels rest ih =>
    have hsize := size_attachLevel_range (Nat.le_of_eq h) labels
    have hleaf' := children_attachLevel_of_le h hleaf labels
    have hrest := ih hsize.symm hleaf' fun choice hc => hne choice (List.mem_cons_of_mem labels hc)
    have hlabels : labels ≠ [] := hne labels List.mem_cons_self
    rw [← attachLevels_range_cons] at hrest
    rw [lastLevel, List.length_range', ← hrest, ← flatMap_children_attachLevels h hleaf labels rest,
      List.flatMap_assoc, List.filter_flatMap, List.filter_flatMap]
    -- a node of the frontier has children, so the leaves at and below it are those below it
    refine List.flatMap_congr fun n hn => ?_
    have hchildren := children_attachLevels_frontier h labels rest (List.mem_range'_1.1 hn)
      (hleaf n (List.mem_range'_1.1 hn).1)
    have hinner : (t.attachLevels (List.range' s m) (labels :: rest)).isLeaf n = false := by
      rw [isLeaf, hchildren]
      simpa using hlabels
    rw [subtree_eq, Rose.preorder_node, List.flatMap_map,
      List.filter_cons_of_neg (by simp [hinner])]

/-- The leaves of a product, all of whose levels have choices, are the nodes attached last. -/
theorem leaves_product (root : String) {choices : List (List String)}
    (hne : ∀ choice ∈ choices, choice ≠ []) :
    (product root choices).preorder.filter (product root choices).isLeaf =
      (ofRoot root).lastLevel [0] choices := by
  have hsize : 0 + 1 = (ofRoot root).size := (size_ofRoot root).symm
  have hleaves := leaves_attachLevels hsize (fun n _ => children_ofRoot root n) hne
  rw [← product_eq, List.range'_one, List.flatMap_singleton] at hleaves
  rw [← hleaves, preorder, skeleton?, root?_product]
  rfl

/-- A product with one level more is the level below each leaf in turn. -/
theorem product_concat (root : String) {choices : List (List String)}
    (hne : ∀ choice ∈ choices, choice ≠ []) (labels : List String) :
    product root (choices ++ [labels]) = (product root choices).attachLevel
      ((product root choices).preorder.filter (product root choices).isLeaf) labels := by
  rw [leaves_product root hne]
  exact attachLevels_concat (ofRoot root) [0] choices labels

end Tree

/-! ## Leaf by leaf -/

namespace Policy

variable {policy : Policy} {t : Tree}

/-- Inserting below the paths of some nodes, one after the other: each path leads to its node in the
tree that the insertions before have made. -/
theorem insertAll_eq_attachLevel {mode : InsertMode} (hnav : t.Navigable)
    (hnodup : ∀ n, (t.childLabels n).Nodup) {segment : String} (hslash : '/' ∉ segment.toList)
    (hempty : segment ≠ "") (htokens : ∀ a ∈ pieces alternativeSeparator segment,
      IsToken policy.strict a) {labels : List String}
    (hlabels : policy.insertedLabels mode (pieces alternativeSeparator segment).eraseDups =
      .ok labels) {ns : List Nat} (hns : ∀ n ∈ ns, n < t.size) {u : Tree} (hgrows : t.Grows u) :
    policy.insertAll mode u (ns.map fun n => ofSegments (t.way n) ++ "/" ++ segment) =
      .ok (u.attachLevel ns labels) := by
  -- the segment offers the same tokens in every path
  have hadded : ∀ path depth, PathStructure.tokens policy.strict path depth segment =
      .ok (pieces alternativeSeparator segment).eraseDups := fun path depth =>
    (PathStructure.tokens_eq_ok_iff_offers hslash).2
      ⟨_, PathStructure.offers_iff.2 rfl, htokens, rfl⟩
  -- `t` stays, and with it the paths, while `u` grows with every insertion
  induction ns generalizing u with
  | nil => rfl
  | cons n ns ih =>
    obtain ⟨hn, hns⟩ := List.forall_mem_cons.1 hns
    have hsegs := (PathStructure.segments_concat_eq_ok_iff (PathStructure.segments_ofSegments
      (Tree.way_ne_nil t n) (hnav.isToken_of_mem_way hn)) hslash).2 hempty
    -- the walk to `n` is that of `t`, whatever the insertions before have added
    have hwalk := hgrows.walk? (hnav.linked.walk?_way hnodup hn)
    have hinsert := insert_eq_ok_iff.2
      ⟨_, segment, n, _, labels, hsegs, hwalk, hadded _ _, hlabels, rfl, rfl⟩
    rw [insertAll, List.map_cons, List.foldlM_cons, hinsert]
    exact ih hns (hgrows.trans (Tree.grows_addChildren u n labels))

/-! ## One level less -/

/-- If a level more expands, then the levels without it do, and the level is within its limit. -/
theorem expandLevels_concat {levels : List Level} {level : Level} {u : Tree} (hne : levels ≠ [])
    (h : policy.expandLevels (levels ++ [level]) = .ok u) :
    ∃ root label below, levels = root :: below ∧ root.tokens = [label] ∧
      policy.expandLevels levels =
        .ok (Tree.product label (below.map fun level => combinationLabels level.tokens)) ∧
      policy.labelsOf level.tokens = .ok (combinationLabels level.tokens) ∧
      u = Tree.product label
        ((below.map fun level => combinationLabels level.tokens) ++
          [combinationLabels level.tokens]) := by
  obtain ⟨root, below, rfl⟩ := List.exists_cons_of_ne_nil hne
  rw [List.cons_append] at h
  obtain ⟨root', label, below', hcons, hroot, hlimit, hcount, rfl⟩ := expandLevels_eq_ok_iff.1 h
  obtain ⟨rfl, rfl⟩ := List.cons.inj hcons
  rw [List.map_append] at hcount
  refine ⟨root, label, below, rfl, hroot, ?_, ?_, ?_⟩
  · -- fewer levels have no more nodes, so the count without the last one is within the limit
    exact expandLevels_eq_ok_iff.2 ⟨root, label, below, rfl, hroot,
      fun level hl => hlimit level (List.mem_append_left _ hl),
      Nat.le_trans (countNodes_concat _ _) hcount, rfl⟩
  · exact labelsOf_eq_ok_iff.2 ⟨hlimit level (by simp), rfl⟩
  · rw [List.map_append]
    rfl

end Policy

/-- In the strict form of the notation, expanding a path structure with one level more is expanding
it without and then inserting the level, by combinations, below the path of each leaf in order. -/
theorem Policy.insertAll_leafPaths {policy : Policy} {path segment : String} {levels : List Level}
    {u : Tree} (hstrict : policy.strict = true)
    (hparse : PathStructure.parse policy.strict path = .ok levels) (hslash : '/' ∉ segment.toList)
    (hu : policy.expand (path ++ "/" ++ segment) = .ok u) :
    ∃ t, policy.expand path = .ok t ∧
      policy.insertAll .combination t (t.leafPaths.map fun q => q ++ "/" ++ segment) = .ok u := by
  obtain ⟨levels', hparse', hexpand⟩ := expand_eq_ok_iff.1 hu
  obtain ⟨hempty, htokens, rfl⟩ := PathStructure.parse_concat hparse hslash hparse'
  obtain ⟨root, label, below, rfl, hroot, ht, hlabels, rfl⟩ :=
    expandLevels_concat (PathStructure.ne_nil_of_parse hparse) hexpand
  have hpath := expand_eq_ok_iff.2 ⟨_, hparse, ht⟩
  have hchoice : ∀ choice ∈ below.map (fun level => combinationLabels level.tokens), choice ≠ [] :=
    List.forall_mem_map.2 fun level hl => Tree.combinationLabels_ne_nil
      (PathStructure.tokens_ne_nil_of_parse hparse (List.mem_cons_of_mem root hl))
  have hlabels : policy.insertedLabels .combination
      (pieces alternativeSeparator segment).eraseDups = .ok _ := hlabels
  refine ⟨_, hpath, ?_⟩
  -- both trees are the product without the last level, with that level below the same leaves
  rw [Tree.leafPaths_eq_map, List.map_map, Tree.product_concat label hchoice]
  exact insertAll_eq_attachLevel (Tree.navigable_expand hpath)
    (Tree.nodup_childLabels_of_expand hpath hstrict) hslash hempty htokens hlabels
    (fun n hn => Tree.lt_size_of_mem (List.mem_filter.1 hn).1) (Tree.Grows.refl _)

/-- Three leaves, and three labels below each. -/
theorem Policy.insertAll_leafPaths_home :
    Policy.expand { strict := true } ("/home/a|b" ++ "/" ++ "d|c") =
      .ok (Tree.product "home" [["a", "b", "a-b"], ["c", "d", "c-d"]]) ∧
    ∃ t, Policy.expand { strict := true } "/home/a|b" = .ok t ∧
      Policy.insertAll { strict := true } .combination t
          (t.leafPaths.map fun q => q ++ "/" ++ "d|c") =
        .ok (Tree.product "home" [["a", "b", "a-b"], ["c", "d", "c-d"]]) := by
  have h : Policy.expand { strict := true } ("/home/a|b" ++ "/" ++ "d|c") =
      .ok (Tree.product "home" [["a", "b", "a-b"], ["c", "d", "c-d"]]) := by
    cbv
  have hparse : PathStructure.parse true "/home/a|b" =
      .ok [⟨0, ["home"]⟩, ⟨1, ["a", "b"]⟩] := by
    cbv
  exact ⟨h, insertAll_leafPaths rfl hparse (by decide) h⟩

end ComboTree
