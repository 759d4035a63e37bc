import ComboTree.Proofs.Insertion
import ComboTree.Proofs.Product
import ComboTree.Proofs.Reachable
import ComboTree.Synonym

/-!
# Every node's path leads to a node with that path

Looking up a path takes the first child with each label and never goes back, so with equal labels
below one node it could run into the twin that lacks the next label.  It does not: in an expansion
all nodes of one depth have the same child labels, and an insertion hangs its children below the
very node that the look-up ends at.  `Navigable` is what insertions keep.

## Key results

- `navigable_product`, `Navigable.addChildren`: the start and the step
- `Navigable.afterEdits`: every run of insertions
- `Navigable.nodeAtPath?_path?`, `Navigable.insert_below_ne_parentNotFound`: looking up a path, and
  inserting below it
- `nodup_childLabels_product`: in the strict form no node has two children alike
- `nodeAtPath?_path?_afterEdits`: paths lead to nodes with the same path
-/

namespace ComboTree

open PathStructure (IsToken ofSegments memberSeparator tokens)

/-- A call that inserts a path. -/
def Edit.IsInsertion : Edit → Prop
  | .addChild .. => False
  | .insert .. => True

namespace Tree

variable {t : Tree}

/-- The labels are tokens, and each way leads to some node. -/
structure Navigable (t : Tree) : Prop where
  linked : t.Linked
  isToken : ∀ n < t.size, IsToken false (t.labelAt n)
  found : ∀ n < t.size, ∃ m, t.walk? (t.way n) = some m

/-! ## The start -/

/-- The labels of a product are those that it is made of. -/
theorem forall_labelAt_product {P : String → Prop} {root : String} {choices : List (List String)}
    (hroot : P root) (h : ∀ choice ∈ choices, ∀ label ∈ choice, P label) :
    ∀ n < (product root choices).size, P ((product root choices).labelAt n) := by
  refine attachLevels_grow_of_mem (P := fun t => ∀ n < t.size, P (t.labelAt n)) ?_ ?_ [0]
  · intro t parent labels hlabels ht
    exact forall_labelAt_addChildren ht (h labels hlabels) parent
  · intro n hn
    obtain rfl : n = 0 := by simpa [size_ofRoot] using hn
    exact hroot

/-- In a product the nodes of one depth have the same child labels, so a walk can go on from any of
them as from any other. -/
theorem Linked.exists_walk?_way_eq (hl : t.Linked) {root : String} {choices : List (List String)}
    (h : t.labelled 0 = Rose.product root choices) {n : Nat} (hn : n < t.size) :
    ∃ m, t.walk? (t.way n) = some m := by
  induction n, hn using hl.node_induction with
  | root hpos =>
    rw [way_eq_singleton parent?_zero]
    exact ⟨0, walk?_cons_eq_some_iff.2 ⟨hpos, label?_eq_some hpos, rfl⟩⟩
  | child p n hp hmem ih =>
    obtain ⟨m, hm⟩ := ih
    obtain ⟨hm', hway⟩ := hl.way_of_walk? hm
    -- the walk so far ends at the depth of the parent
    have hdepth := depth_eq_of_way_eq hway
    have hlabel : t.labelAt n ∈ t.childLabels m := by
      rw [hl.childLabels_eq_of_depth_eq h hm' hp hdepth, childLabels_eq_map]
      exact List.mem_map_of_mem hmem
    obtain ⟨c, hc, hlabel⟩ := List.mem_filterMap.1 hlabel
    rw [way_eq_concat (hl.mem_children_iff.1 hmem), walk?_concat (way_ne_nil t p), hm,
      Option.bind_some]
    exact exists_findChild?_eq_some hc hlabel

/-- In a product each way leads somewhere. -/
theorem navigable_product {root : String} {choices : List (List String)}
    (hroot : IsToken false root) (h : ∀ choice ∈ choices, ∀ label ∈ choice, IsToken false label) :
    (product root choices).Navigable where
  linked := linked_product root choices
  isToken := forall_labelAt_product hroot h
  found := fun _ hn =>
    (linked_product root choices).exists_walk?_way_eq (labelled_product root choices) hn

/-- So it does in an expansion, whose labels are made of tokens. -/
theorem navigable_expand {policy : Policy} {path : String} (h : policy.expand path = .ok t) :
    t.Navigable := by
  obtain ⟨root, label, below, hparse, hroot, rfl, -⟩ := exists_product_of_expand h
  have htokens := PathStructure.isToken_of_parse hparse
  -- the root's label is a token itself, the others are tokens joined together
  refine navigable_product ?_ ?_
  · refine (htokens root List.mem_cons_self label ?_).lenient
    rw [hroot]
    exact List.mem_singleton_self label
  · rw [List.forall_mem_map]
    intro level hlevel l hl
    exact isToken_of_mem_combinationLabels (htokens level (List.mem_cons_of_mem root hlevel)) hl

/-! ## The step -/

/-- New children below a node at which a walk ends are found by going one step further. -/
theorem Navigable.addChildren (h : t.Navigable) {above labels : List String} {parent : Nat}
    (hwalk : t.walk? above = some parent) (hlabels : ∀ label ∈ labels, IsToken false label) :
    (t.addChildren parent labels).Navigable := by
  have hgrows := grows_addChildren t parent labels
  have hl := h.linked.addChildren parent labels
  obtain ⟨hparent, hway⟩ := h.linked.way_of_walk? hwalk
  refine ⟨hl, forall_labelAt_addChildren h.isToken hlabels parent, fun n hn => ?_⟩
  rcases (lt_size_addChildren_iff hparent).1 hn with hlt | ⟨i, hi, rfl⟩
  · -- the walk to an old node is not changed by what comes after the old children
    obtain ⟨m, hm⟩ := h.found n hlt
    exact ⟨m, hgrows.way_eq hlt ▸ hgrows.walk? hm⟩
  · -- the way to a new node goes on from the parent's, whose walk ends at the parent itself
    have hp := parent?_addChildren_new hparent hi
    rw [way_eq_concat hp, walk?_concat (way_ne_nil _ _), hgrows.way_eq hparent, hway,
      hgrows.walk? hwalk, Option.bind_some]
    exact exists_findChild?_eq_some (hl.mem_children_iff.2 hp) (label?_eq_some hn)

/-- An insertion that succeeds keeps every path leading to a node. -/
theorem Navigable.insert (h : t.Navigable) {policy : Policy} {mode : InsertMode} {path : String}
    {handles : List Nat} {u : Tree} (hinsert : policy.insert mode t path = .ok (handles, u)) :
    u.Navigable := by
  obtain ⟨above, last, parent, added, labels, hsegs, hwalk, htokens, hlabels, -, rfl⟩ :=
    Policy.insert_eq_ok_iff.1 hinsert
  have hsegmented := PathStructure.segmented_of_segments hsegs
  have hadded := PathStructure.isToken_of_tokens htokens (hsegmented.no_slash last (by simp))
  exact h.addChildren hwalk (Policy.isToken_of_insertedLabels hlabels hadded)

/-- Insertions, failing or not, keep every path leading to a node. -/
theorem Navigable.afterEdits (h : t.Navigable) {edits : List Edit}
    (hedits : ∀ e ∈ edits, e.IsInsertion) : (t.afterEdits edits).Navigable := by
  induction edits generalizing t with
  | nil => exact h
  | cons e edits ih =>
    obtain ⟨he, hedits⟩ := List.forall_mem_cons.1 hedits
    refine ih (t := e.apply t) ?_ hedits
    -- an insertion that fails leaves the tree as it was
    cases e with
    | addChild parent label => exact he.elim
    | insert policy mode path =>
      simp only [Edit.apply]
      split
      · rename_i hinsert
        exact h.insert hinsert
      · exact h

/-! ## Paths -/

variable {n : Nat}

/-- The labels on a way are tokens. -/
theorem Navigable.isToken_of_mem_way (h : t.Navigable) (hn : n < t.size) :
    ∀ label ∈ t.way n, IsToken false label := by
  intro label hlabel
  obtain ⟨m, hm, rfl⟩ := mem_way hlabel hn
  exact h.isToken m hm

/-- So a path is cut into the labels that it was written from. -/
theorem Navigable.segmented_way (h : t.Navigable) (hn : n < t.size) :
    PathStructure.Segmented (ofSegments (t.way n)) (t.way n) :=
  ⟨way_ne_nil t n, fun label hlabel => (h.isToken_of_mem_way hn label hlabel).no_slash, rfl⟩

/-- Looking up the path of a node is walking its way. -/
theorem Navigable.nodeAtPath?_eq (h : t.Navigable) (hn : n < t.size) :
    t.nodeAtPath? (ofSegments (t.way n)) = t.walk? (t.way n) :=
  nodeAtPath?_eq_walk? (h.segmented_way hn)

/-- A node's path leads to a node with that path. -/
theorem Navigable.nodeAtPath?_path? (h : t.Navigable) (hn : n < t.size) :
    ∃ p m, t.path? n = some p ∧ t.nodeAtPath? p = some m ∧ t.path? m = some p := by
  obtain ⟨m, hm⟩ := h.found n hn
  obtain ⟨hlt, hway⟩ := h.linked.way_of_walk? hm
  refine ⟨_, m, path?_eq_way hn, (h.nodeAtPath?_eq hn).trans hm, ?_⟩
  rw [path?_eq_way hlt, hway]

/-- Below a node's path one can insert: if something is wrong, then with the last segment. -/
theorem Navigable.insert_below_ne_parentNotFound (h : t.Navigable) (hn : n < t.size)
    {segment : String} (hslash : '/' ∉ segment.toList) (policy : Policy) (mode : InsertMode)
    (path' component : String) :
    policy.insert mode t (ofSegments (t.way n) ++ "/" ++ segment) ≠
      .error (.parentNotFound path' component) := by
  -- the segments may be refused for the last one; if not, the others are the way to `n`
  cases hsegs : PathStructure.segments (ofSegments (t.way n) ++ "/" ++ segment) with
  | error fault =>
    intro hinsert
    rw [Policy.insert, Policy.locate, hsegs] at hinsert
    obtain rfl := Except.error.inj hinsert
    cases PathStructure.segments_eq_error_iff.1 hsegs
  | ok segs =>
    obtain ⟨m, hm⟩ := h.found n hn
    obtain rfl := (PathStructure.segmented_of_segments hsegs).unique
      ((h.segmented_way hn).concat hslash)
    exact Policy.insert_ne_parentNotFound hsegs hm mode path' component

/-- Where no list of choices has a label twice, no node of a product has two children alike. -/
theorem nodup_childLabels_product (root : String) {choices : List (List String)}
    (h : ∀ choice ∈ choices, choice.Nodup) (n : Nat) :
    ((product root choices).childLabels n).Nodup := by
  rcases childLabels_product root choices n with hnil | hmem
  · rw [hnil]
    exact List.nodup_nil
  · exact h _ hmem

/-- In the strict form of the notation no node of an expansion has two children alike. -/
theorem nodup_childLabels_of_expand {policy : Policy} {path : String}
    (h : policy.expand path = .ok t) (hstrict : policy.strict = true) :
    ∀ n, (t.childLabels n).Nodup := by
  obtain ⟨root, label, below, hparse, -, rfl, -⟩ := exists_product_of_expand h
  apply nodup_childLabels_product
  rw [List.forall_mem_map]
  intro level hlevel
  rw [hstrict] at hparse
  exact nodup_combinationLabels fun token htoken =>
    PathStructure.not_mem_of_parse_strict hparse (List.mem_cons_of_mem root hlevel) htoken

/-- In an expansion that was then extended by insertions, failing or not, the path of every node
leads to a node with that path, with whatever labels siblings share.  So the path of a leaf can be
searched from, and inserted below: the parent is never missing.  In the strict form of the notation
the path of a node of the expansion leads back to the node itself. -/
theorem nodeAtPath?_path?_afterEdits {policy : Policy} {path : String} {start : Tree}
    {edits : List Edit} (hstart : policy.expand path = .ok start)
    (hedits : ∀ e ∈ edits, e.IsInsertion) (ht : t = start.afterEdits edits) :
    (∀ n, t.contains n →
      ∃ p m, t.path? n = some p ∧ t.nodeAtPath? p = some m ∧ t.path? m = some p) ∧
    (∀ p ∈ t.leafPaths,
      (∀ rule, ∃ answer, t.findSynonymByPath rule p = .ok answer) ∧
      ∀ (policy' : Policy) mode segment, '/' ∉ segment.toList → ∀ path' component,
        policy'.insert mode t (p ++ "/" ++ segment) ≠ .error (.parentNotFound path' component)) ∧
    (policy.strict = true → ∀ n, start.contains n →
      ∃ p, start.path? n = some p ∧ start.nodeAtPath? p = some n) := by
  -- the invariant holds of the expansion and of every tree that insertions make of it
  have hnav : t.Navigable := ht ▸ (navigable_expand hstart).afterEdits hedits
  refine ⟨fun n hn => hnav.nodeAtPath?_path? (contains_iff.1 hn), fun p hp => ?_, ?_⟩
  · rw [leafPaths_eq_map] at hp
    obtain ⟨n, hmem, rfl⟩ := List.mem_map.1 hp
    have hn := lt_size_of_mem (List.mem_filter.1 hmem).1
    refine ⟨fun rule => ?_, fun policy' mode segment hslash =>
      hnav.insert_below_ne_parentNotFound hn hslash policy' mode⟩
    obtain ⟨m, hm⟩ := hnav.found n hn
    rw [findSynonymByPath, hnav.nodeAtPath?_eq hn, hm]
    exact ⟨_, rfl⟩
  · -- in the strict form the node that is found is the only one with its way
    intro hstrict n hn
    have hnav := navigable_expand hstart
    have hn := contains_iff.1 hn
    have hwalk := hnav.linked.walk?_way (nodup_childLabels_of_expand hstart hstrict) hn
    exact ⟨_, path?_eq_way hn, (hnav.nodeAtPath?_eq hn).trans hwalk⟩

/-- A token has the label of two others together, and a path is inserted below it twice, with one
that leads nowhere in between; and an expansion in the strict form of the notation. -/
theorem nodeAtPath?_path?_afterEdits_twins :
    Policy.expand {} "/home/a|b|a-b" =
      .ok (product "home" [["a", "a-b", "b", "a-a-b", "a-b", "a-b-b", "a-a-b-b"]]) ∧
    (∃ p m, ((product "home" [["a", "a-b", "b", "a-a-b", "a-b", "a-b-b", "a-a-b-b"]]).afterEdits
        [.insert {} .literal "/home/a-b/c", .insert {} .literal "/nowhere/c",
          .insert {} .literal "/home/a-b/c"]).path? 9 = some p ∧
      ((product "home" [["a", "a-b", "b", "a-a-b", "a-b", "a-b-b", "a-a-b-b"]]).afterEdits
        [.insert {} .literal "/home/a-b/c", .insert {} .literal "/nowhere/c",
          .insert {} .literal "/home/a-b/c"]).nodeAtPath? p = some m) ∧
    Policy.expand { strict := true } "/home/a|b" = .ok (product "home" [["a", "b", "a-b"]]) ∧
    ∃ p, (product "home" [["a", "b", "a-b"]]).path? 3 = some p ∧
      (product "home" [["a", "b", "a-b"]]).nodeAtPath? p = some 3 := by
  have htwins : Policy.expand {} "/home/a|b|a-b" =
      .ok (product "home" [["a", "a-b", "b", "a-a-b", "a-b", "a-b-b", "a-a-b-b"]]) := by
    cbv
  have hedits : ∀ e ∈ [Edit.insert {} .literal "/home/a-b/c", .insert {} .literal "/nowhere/c",
      .insert {} .literal "/home/a-b/c"], e.IsInsertion := by
    simp [Edit.IsInsertion]
  have hstrict : Policy.expand { strict := true } "/home/a|b" =
      .ok (product "home" [["a", "b", "a-b"]]) := by
    cbv
  obtain ⟨hpaths, -, -⟩ := nodeAtPath?_path?_afterEdits htwins hedits rfl
  obtain ⟨p, m, hp, hm, -⟩ := hpaths 9 (by cbv)
  obtain ⟨-, -, hback⟩ := nodeAtPath?_path?_afterEdits hstrict (List.forall_mem_nil _) rfl
  exact ⟨htwins, ⟨p, m, hp, hm⟩, hstrict, hback rfl 3 (by cbv)⟩

end Tree

end ComboTree
