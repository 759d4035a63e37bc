import ComboTree.Proofs.Growth
import ComboTree.Proofs.Language
import ComboTree.Proofs.Shape

/-!
# Ways as lists of labels

`way n` lists the labels from the root down to `n`, which is what a path writes, and `walk?` goes
where a list of labels leads from above the root.  Looking up a path is cutting it and walking, and
where links agree a walk ends at a node with that way.  It need not end at the node one started
from: with equal labels below one node it keeps to the first of them.

## Key results

- `path?_eq_way`, `nodeAtPath?_eq_walk?`, `nodeAtPath?_eq_some_iff`: paths are ways, written with
  slashes
- `depth_eq_of_way_eq`, `label?_eq_of_way_eq`: what nodes with the same way share
- `walk?_append`, `walk?_concat`: labels after labels, and one step more
- `Linked.way_of_walk?`: where a walk ends
- `Linked.walk?_way`: without equal labels below one node, a walk ends where its way comes from
- `follow_eq_ok_iff`: the walk that names the missing label
-/

namespace ComboTree.Tree

open PathStructure (ofSegments Segmented segmented_iff levelSeparator)

variable {t u : Tree}

/-! ## Ways up -/

/-- The labels from the root down to `n`. -/
def way (t : Tree) (n : Nat) : List String := (t.lineage n).map t.labelAt

/-- The way to a node without a parent is its label. -/
theorem way_eq_singleton {n : Nat} (h : t.parent? n = none) : t.way n = [t.labelAt n] := by
  rw [way, lineage_eq_singleton h]
  rfl

/-- The way to a node is that to its parent and one label more. -/
theorem way_eq_concat {n p : Nat} (h : t.parent? n = some p) :
    t.way n = t.way p ++ [t.labelAt n] := by
  rw [way, lineage_eq_concat h, List.map_append]
  rfl

/-- A way is as long as its node is deep, the root's label included. -/
@[simp] theorem length_way (t : Tree) (n : Nat) :
    (t.way n).length = (t.ancestors n).length + 1 := by
  simp [way, lineage]

/-- Every way has a label, that of its node. -/
theorem way_ne_nil (t : Tree) (n : Nat) : t.way n ≠ [] := by
  rw [← List.length_pos_iff, length_way]
  exact Nat.succ_pos _

/-- A way ends with the label of its node. -/
theorem getLast?_way (t : Tree) (n : Nat) : (t.way n).getLast? = some (t.labelAt n) := by
  simp [way, lineage]

/-- Nodes with the same way are equally deep. -/
theorem depth_eq_of_way_eq {m n : Nat} (h : t.way m = t.way n) :
    (t.ancestors m).length = (t.ancestors n).length := by
  have hlength := congrArg List.length h
  simpa using hlength

/-- Nodes with the same way have the same label. -/
theorem label?_eq_of_way_eq {m n : Nat} (hm : m < t.size) (hn : n < t.size)
    (h : t.way m = t.way n) : t.label? m = t.label? n := by
  have hlast := congrArg List.getLast? h
  rw [getLast?_way, getLast?_way] at hlast
  rw [label?_eq_some hm, label?_eq_some hn, hlast]

/-- The labels of a way are labels of nodes. -/
theorem mem_way {n : Nat} {label : String} (h : label ∈ t.way n) (hn : n < t.size) :
    ∃ m < t.size, t.labelAt m = label := by
  obtain ⟨m, hm, rfl⟩ := List.mem_map.1 h
  exact ⟨m, lt_size_of_mem_lineage hn hm, rfl⟩

/-- The path of a known node is its way, written with slashes. -/
theorem path?_eq_way {n : Nat} (hn : n < t.size) : t.path? n = some (ofSegments (t.way n)) :=
  path?_eq_some hn

/-- The way to an old node is what it was. -/
theorem Grows.way_eq (h : t.Grows u) {n : Nat} (hn : n < t.size) : u.way n = t.way n := by
  rw [way, lineage, h.ancestors_eq hn]
  -- it leads over the same nodes, which kept their labels
  apply List.map_congr_left
  intro m hm
  exact h.labelAt_eq (lt_size_of_mem_lineage hn hm)

/-! ## Walks down -/

/-- Where the labels lead from above the root, taking the first child with each. -/
def walk? (t : Tree) : List String → Option Nat
  | [] => none
  | label :: below => do
    let root ← t.root?
    if t.label? root = some label then t.descend? root below else none

/-- A walk starts with the label of the root and goes down from there. -/
theorem walk?_cons_eq_some_iff {n : Nat} {label : String} {below : List String} :
    t.walk? (label :: below) = some n ↔
      0 < t.size ∧ t.label? 0 = some label ∧ t.descend? 0 below = some n := by
  rw [walk?, root?_eq]
  by_cases h : t.size = 0
  · simp [h]
  · have hpos : 0 < t.size := Nat.pos_of_ne_zero h
    simp [h, hpos]

/-- Labels after labels are followed from where the first ones lead. -/
theorem walk?_append {first : List String} (h : first ≠ []) (second : List String) :
    t.walk? (first ++ second) = (t.walk? first).bind fun n => t.descend? n second := by
  obtain ⟨root, below, rfl⟩ := List.exists_cons_of_ne_nil h
  -- both sides lead to `n` for the same root and the same node in between
  ext n
  rw [List.cons_append, walk?_cons_eq_some_iff, descend?_append]
  simp only [Option.bind_eq_some_iff, walk?_cons_eq_some_iff]
  constructor
  · rintro ⟨hpos, hroot, m, hm, hn⟩
    exact ⟨m, ⟨hpos, hroot, hm⟩, hn⟩
  · rintro ⟨m, ⟨hpos, hroot, hm⟩, hn⟩
    exact ⟨hpos, hroot, m, hm, hn⟩

/-- One label more is one step further. -/
theorem walk?_concat {labels : List String} (h : labels ≠ []) (label : String) :
    t.walk? (labels ++ [label]) = (t.walk? labels).bind fun n => t.findChild? n label := by
  have hlast : ∀ m, t.descend? m [label] = t.findChild? m label := fun m => Option.bind_fun_some _
  rw [walk?_append h]
  simp only [hlast]

/-- Where a walk ended, it ends in the grown tree. -/
theorem Grows.walk? (h : t.Grows u) {labels : List String} {n : Nat}
    (hn : t.walk? labels = some n) : u.walk? labels = some n := by
  cases labels with
  | nil => exact nomatch hn
  | cons label below =>
    obtain ⟨hpos, hroot, hn⟩ := walk?_cons_eq_some_iff.1 hn
    exact walk?_cons_eq_some_iff.2
      ⟨Nat.lt_of_lt_of_le hpos h.size_le, (h.label?_eq hpos).trans hroot, h.descend? hn⟩

/-- A walk ends at a node of the tree, to which it is the way. -/
theorem Linked.way_of_walk? (hl : t.Linked) {labels : List String} {n : Nat}
    (h : t.walk? labels = some n) : n < t.size ∧ t.way n = labels := by
  -- a walk takes its last step last, so the induction takes labels off the end
  induction labels using List.reverseRecOn generalizing n with
  | nil => exact nomatch h
  | append_singleton labels label ih =>
    by_cases hne : labels = []
    · subst hne
      obtain ⟨hpos, hroot, h⟩ := walk?_cons_eq_some_iff.1 h
      obtain rfl := Option.some.inj h
      rw [way_eq_singleton parent?_zero, labelAt, hroot]
      exact ⟨hpos, rfl⟩
    · rw [walk?_concat hne] at h
      obtain ⟨p, hp, hn⟩ := Option.bind_eq_some_iff.1 h
      obtain ⟨hmem, hlabel⟩ := findChild?_eq_some hn
      rw [way_eq_concat (hl.mem_children_iff.1 hmem), (ih hp).2, labelAt, hlabel]
      exact ⟨(mem_children_bounds hmem).2, rfl⟩

/-- Where no two children of one node have the same label, the first child with a label is the
only one, so a walk ends where its way comes from. -/
theorem Linked.walk?_way (hl : t.Linked) (hnodup : ∀ n, (t.childLabels n).Nodup) {n : Nat}
    (hn : n < t.size) : t.walk? (t.way n) = some n := by
  induction n, hn using hl.node_induction with
  | root hpos =>
    rw [way_eq_singleton parent?_zero, walk?_cons_eq_some_iff]
    exact ⟨hpos, label?_eq_some hpos, rfl⟩
  | child p n _ hmem ih =>
    obtain ⟨m, hm⟩ := exists_findChild?_eq_some hmem (label?_eq_some (mem_children_bounds hmem).2)
    obtain ⟨hm', hlabel⟩ := findChild?_eq_some hm
    -- the child that is found has the label of `n`, which no other child has
    have hsame : m = n := by
      have hinj := List.inj_on_of_nodup_map (f := t.labelAt) (l := t.children p) ?_ hm' hmem
      · exact hinj (by rw [labelAt, hlabel]; rfl)
      · rw [← childLabels_eq_map]
        exact hnodup p
    rw [way_eq_concat (hl.mem_children_iff.1 hmem), walk?_concat (way_ne_nil t p), ih,
      Option.bind_some, hm, hsame]

/-! ## Paths -/

/-- A path leads where its segments do. -/
theorem nodeAtPath?_eq_walk? {path : String} {labels : List String} (h : Segmented path labels) :
    t.nodeAtPath? path = t.walk? labels := by
  obtain ⟨label, below, rfl⟩ := List.exists_cons_of_ne_nil h.ne_nil
  rw [nodeAtPath?, (segmented_iff.1 h).2]
  rfl

/-- A path that leads to a node is cut into segments, and these lead there. -/
theorem nodeAtPath?_eq_some_iff {path : String} {n : Nat} :
    t.nodeAtPath? path = some n ↔ ∃ labels, Segmented path labels ∧ t.walk? labels = some n := by
  constructor
  · intro hn
    have hfound := hn
    unfold nodeAtPath? at hn
    split at hn
    · -- the text before the first slash is empty, the others are the segments
      rename_i label below hpieces
      have hsegmented : Segmented path (label :: below) :=
        segmented_iff.2 ⟨List.cons_ne_nil label below, hpieces⟩
      rw [nodeAtPath?_eq_walk? hsegmented] at hfound
      exact ⟨label :: below, hsegmented, hfound⟩
    · exact nomatch hn
  · intro ⟨labels, hsegmented, hn⟩
    rw [nodeAtPath?_eq_walk? hsegmented, hn]

/-- What a path led to, it leads to in the grown tree. -/
theorem Grows.nodeAtPath? (h : t.Grows u) {path : String} {n : Nat}
    (hn : t.nodeAtPath? path = some n) : u.nodeAtPath? path = some n := by
  obtain ⟨labels, hsegmented, hn⟩ := nodeAtPath?_eq_some_iff.1 hn
  exact nodeAtPath?_eq_some_iff.2 ⟨labels, hsegmented, h.walk? hn⟩

/-- The pre-order meets known nodes only. -/
theorem lt_size_of_mem {n : Nat} (h : n ∈ t.preorder) : n < t.size := by
  rw [preorder, skeleton?, root?_eq] at h
  by_cases hsize : t.size = 0
  · simp [hsize] at h
  · rw [if_neg hsize] at h
    exact lt_size_of_mem_preorder (Nat.pos_of_ne_zero hsize) h

/-- The paths of the leaves are the ways to them. -/
theorem leafPaths_eq_map (t : Tree) :
    t.leafPaths = (t.preorder.filter t.isLeaf).map fun n => ofSegments (t.way n) := by
  -- every leaf that is met is known, so none is left out for want of a path
  have hpath : ∀ n ∈ t.preorder.filter t.isLeaf, t.path? n = some (ofSegments (t.way n)) :=
    fun n hn => path?_eq_way (lt_size_of_mem (List.mem_filter.1 hn).1)
  rw [leafPaths, List.filterMap_congr hpath]
  exact congrFun List.filterMap_eq_map _

/-- Following labels ends where they lead, if every child is found. -/
theorem follow_eq_ok_iff {n m : Nat} {labels : List String} :
    t.follow n labels = .ok m ↔ t.descend? n labels = some m := by
  induction labels generalizing n with
  | nil => simp [follow, descend?, pure, Except.pure]
  -- both walks take the same child first, and fail together if there is none
  | cons label labels ih =>
    rw [descend?_cons, follow, List.foldlM_cons]
    cases t.findChild? n label with
    | none => simp [bind, Except.bind]
    | some c => exact ih

end ComboTree.Tree
