import ComboTree.Expansion
import ComboTree.Tree.Traversal
import Mathlib.Logic.Relation
import Mathlib.Logic.Function.Iterate
import Mathlib.Tactic.ByContra

/-!
# Parent links and child lists agree

A tree stores each link twice: a node names its parent, and the parent lists the node among its
children.  `Linked` says that the two agree, that no child is listed twice, and that only the first
node has no parent.  Every way of making or growing a tree keeps it.

## Key results

- `node?_addChildren`, `label?_addChildren`, `parent?_addChildren`, `children_addChildren`: what each
  node of a grown tree looks like, for every handle
- `Linked.addChildren`, `linked_product`: links agree after growing
- `Linked.node_induction`, `Linked.descends`: what children inherit from the root on, every node has,
  since every node is below the root
- `root?_eq_some_iff`, `lineage_eq_concat`: the root, and one step more on the way down from it
- `Linked.depth_child`, `Linked.exists_parent`: depths, one step down and up
- `iterate_parent?`: following parent links lists the ancestors and then ends
- `path?_eq_some`: every label on the way up is there, so a known node has a path
-/

namespace ComboTree.Tree

variable {t : Tree}

/-- The known handles are those below the size. -/
theorem contains_iff {n : Nat} : t.contains n = true ↔ n < t.size := by
  simp [contains]

/-! ## Known and unknown handles -/

/-- A handle past the last node names nothing. -/
theorem node?_eq_none {n : Nat} (h : t.size ≤ n) : t.node? n = none :=
  Array.getElem?_eq_none h

/-- An unknown node has no parent. -/
theorem parent?_eq_none {n : Nat} (h : t.size ≤ n) : t.parent? n = none := by
  simp [parent?, node?_eq_none h]

/-- Exactly the known nodes have labels. -/
theorem label?_isSome_iff {n : Nat} : (t.label? n).isSome ↔ n < t.size := by
  simp [label?, node?, size]

/-- The label of `n`, which is empty for an unknown node. -/
def labelAt (t : Tree) (n : Nat) : String := (t.label? n).getD ""

/-- The label of a known node is there. -/
theorem label?_eq_some {n : Nat} (h : n < t.size) : t.label? n = some (t.labelAt n) := by
  obtain ⟨label, hlabel⟩ := Option.isSome_iff_exists.1 (label?_isSome_iff.2 h)
  rw [labelAt, hlabel]
  rfl

/-- A node with a parent is a known one. -/
theorem lt_size_of_parent? {n p : Nat} (h : t.parent? n = some p) : n < t.size := by
  by_contra hn
  rw [parent?_eq_none (by omega)] at h
  exact nomatch h

/-! ## A grown tree, node by node -/

/-- Old nodes stay as they are, but for the parent, which has the new ones after its children; the
new ones are leaves. -/
theorem node?_addChildren {parent : Nat} (h : parent < t.size) (labels : List String) (n : Nat) :
    (t.addChildren parent labels).node? n =
      if n < t.size then
        (t.node? n).map fun node =>
          if n = parent then node.adopt (List.range' t.size labels.length) else node
      else labels[n - t.size]?.map (Node.leaf (some parent)) := by
  split
  · rename_i hn
    exact node?_addChildren_of_lt h hn labels
  · rename_i hn
    -- a handle that is not old is the size and the place of a label
    obtain ⟨i, rfl⟩ := Nat.exists_eq_add_of_le (Nat.le_of_not_lt hn)
    rw [node?_addChildren_of_le h, Nat.add_sub_cancel_left]

/-- Old nodes keep their labels; the new ones carry the given labels in order. -/
theorem label?_addChildren {parent : Nat} (h : parent < t.size) (labels : List String) (n : Nat) :
    (t.addChildren parent labels).label? n =
      if n < t.size then t.label? n else labels[n - t.size]? := by
  split
  · rename_i hn
    exact label?_addChildren_of_lt h hn labels
  · rename_i hn
    obtain ⟨i, rfl⟩ := Nat.exists_eq_add_of_le (Nat.le_of_not_lt hn)
    rw [label?, node?_addChildren_of_le h, Option.map_map, Nat.add_sub_cancel_left]
    cases labels[i]? <;> rfl

/-- Old nodes keep their parents; the new ones have the given parent. -/
theorem parent?_addChildren {parent : Nat} (h : parent < t.size) (labels : List String) (n : Nat) :
    (t.addChildren parent labels).parent? n =
      if n < t.size then t.parent? n
      else if n < t.size + labels.length then some parent else none := by
  split
  · rename_i hn
    exact parent?_addChildren_of_lt h hn labels
  · rename_i hn
    obtain ⟨i, rfl⟩ := Nat.exists_eq_add_of_le (Nat.le_of_not_lt hn)
    rw [parent?, node?_addChildren_of_le h]
    by_cases hi : i < labels.length
    · simp [hi, Node.leaf]
    · simp [hi]

/-- The given parent has the new nodes after its old children; no other child list changes. -/
theorem children_addChildren {parent : Nat} (h : parent < t.size) (labels : List String) (n : Nat) :
    (t.addChildren parent labels).children n =
      if n = parent then t.children n ++ List.range' t.size labels.length else t.children n := by
  by_cases hn : n < t.size
  · exact children_addChildren_of_lt h hn labels
  · have hne : n ≠ parent := by omega
    obtain ⟨i, rfl⟩ := Nat.exists_eq_add_of_le (Nat.le_of_not_lt hn)
    rw [if_neg hne, children, children, node?_addChildren_of_le h,
      node?_eq_none (Nat.le_add_right ..)]
    cases labels[i]? <;> rfl

/-- A node of the grown tree was there before, or it is one of the new ones. -/
theorem lt_size_addChildren_iff {parent : Nat} (h : parent < t.size) {labels : List String}
    {n : Nat} : n < (t.addChildren parent labels).size ↔
      n < t.size ∨ ∃ i, i < labels.length ∧ n = t.size + i := by
  rw [size_addChildren h]
  constructor
  · intro hn
    by_cases hlt : n < t.size
    · exact .inl hlt
    · exact .inr ⟨n - t.size, by omega, by omega⟩
  · rintro (hlt | ⟨i, hi, rfl⟩)
    · exact Nat.lt_add_right _ hlt
    · exact Nat.add_lt_add_left hi _

/-- The new nodes have the given labels, one each. -/
theorem labelAt_addChildren_new {parent : Nat} (h : parent < t.size) {labels : List String}
    {i : Nat} (hi : i < labels.length) :
    (t.addChildren parent labels).labelAt (t.size + i) = labels[i] := by
  rw [labelAt, label?_addChildren h, if_neg (by omega), Nat.add_sub_cancel_left,
    List.getElem?_eq_getElem hi]
  rfl

/-- The new nodes are below the given parent. -/
theorem parent?_addChildren_new {parent : Nat} (h : parent < t.size) {labels : List String}
    {i : Nat} (hi : i < labels.length) :
    (t.addChildren parent labels).parent? (t.size + i) = some parent := by
  rw [parent?_addChildren h, if_neg (by omega), if_pos (by omega)]

/-! ## The invariant -/

/-- Each link is stored at both of its ends and once, and only the first node has no parent. -/
structure Linked (t : Tree) : Prop where
  mem_children_iff : ∀ {n c}, c ∈ t.children n ↔ t.parent? c = some n
  nodup_children : ∀ n, (t.children n).Nodup
  eq_zero_of_orphan : ∀ {n}, n < t.size → t.parent? n = none → n = 0

/-- Without nodes there is no link. -/
theorem linked_empty : empty.Linked where
  mem_children_iff := by simp [children, parent?, node?, empty]
  nodup_children := by simp [children, node?, empty]
  eq_zero_of_orphan := by simp [size, empty]

/-- A lone root has no link either. -/
theorem linked_ofRoot (label : String) : (ofRoot label).Linked where
  mem_children_iff := by
    intro n c
    cases n <;> cases c <;> simp [children, parent?, node?, ofRoot, Node.leaf]
  nodup_children := by
    intro n
    cases n <;> simp [children, node?, ofRoot, Node.leaf]
  eq_zero_of_orphan := by
    intro n hn _
    simp [size, ofRoot] at hn
    exact hn

/-- The step: a block of new children keeps the links in agreement. -/
theorem Linked.addChildren (hl : t.Linked) (parent : Nat) (labels : List String) :
    (t.addChildren parent labels).Linked := by
  by_cases h : parent < t.size
  · constructor
    · intro n c
      rw [children_addChildren h, parent?_addChildren h]
      have hold := hl.mem_children_iff (n := n) (c := c)
      by_cases hc : c < t.size
      · -- an old node is in no block of new handles
        have hnew : c ∉ List.range' t.size labels.length := by
          rw [List.mem_range'_1]
          omega
        rw [if_pos hc, ← hold]
        split
        · simp [hnew]
        · rfl
      · -- a new node is in the block of its parent and, not being old, in no old list
        have hnew : c ∉ t.children n := fun hm => hc (mem_children_bounds hm).2
        rw [if_neg hc]
        split
        · rename_i hn
          subst hn
          simp only [List.mem_append, hnew, false_or, List.mem_range'_1]
          split <;> simp <;> omega
        · rename_i hn
          split <;> simp [hnew, Ne.symm hn]
    · intro n
      rw [children_addChildren h]
      split
      · -- old children have old handles and the new ones new handles
        refine List.nodup_append.2 ⟨hl.nodup_children n, List.nodup_range' .., ?_⟩
        intro a ha b hb
        have := (mem_children_bounds ha).2
        have := (List.mem_range'_1.1 hb).1
        omega
      · exact hl.nodup_children n
    · intro n hn hp
      rw [size_addChildren h] at hn
      rw [parent?_addChildren h] at hp
      by_cases hlt : n < t.size
      · rw [if_pos hlt] at hp
        exact hl.eq_zero_of_orphan hlt hp
      · rw [if_neg hlt, if_pos hn] at hp
        cases hp
  · rw [addChildren_of_not_lt h]
    exact hl

/-- What adding the labels of one level keeps, attaching all levels keeps. -/
theorem attachLevels_grow_of_mem {P : Tree → Prop} {choices : List (List String)}
    (addChildren : ∀ t parent labels, labels ∈ choices → P t → P (t.addChildren parent labels))
    {t : Tree} (h : P t) (frontier : List Nat) : P (t.attachLevels frontier choices) := by
  -- a level is a fold over its frontier, so the step carries over to it
  have hlevel : ∀ labels, (∀ t parent, P t → P (t.addChildren parent labels)) →
      ∀ (frontier : List Nat) {t : Tree}, P t → P (t.attachLevel frontier labels) := by
    intro labels hstep frontier
    induction frontier with
    | nil => exact id
    | cons n ns ih => exact fun h => ih (hstep _ n h)
  -- the frontier of a level is made by the level before it, hence any frontier
  induction choices generalizing t frontier with
  | nil => exact h
  | cons labels rest ih =>
    have hlabels := fun t parent => addChildren t parent labels List.mem_cons_self
    have hrest := fun t parent l hl => addChildren t parent l (List.mem_cons_of_mem labels hl)
    exact ih hrest (hlevel labels hlabels frontier h) _

/-- What `addChildren` keeps, attaching levels keeps. -/
theorem attachLevels_grow {P : Tree → Prop}
    (addChildren : ∀ t parent labels, P t → P (t.addChildren parent labels))
    {t : Tree} (h : P t) (frontier : List Nat) (choices : List (List String)) :
    P (t.attachLevels frontier choices) :=
  attachLevels_grow_of_mem (fun t parent labels _ => addChildren t parent labels) h frontier

/-- The links of an expanded tree agree. -/
theorem linked_product (root : String) (choices : List (List String)) :
    (product root choices).Linked :=
  attachLevels_grow (fun _ parent labels hl => hl.addChildren parent labels) (linked_ofRoot root) _ _

/-! ## Going down -/

/-- The empty tree is the one of size zero. -/
theorem isEmpty_iff : t.isEmpty = true ↔ t.size = 0 := by
  simp [isEmpty, size]

/-- A tree with nodes has the first of them as its root. -/
theorem root?_eq : t.root? = if t.size = 0 then none else some 0 := by
  by_cases h : t.size = 0
  · rw [root?, if_pos (isEmpty_iff.2 h), if_pos h]
  · rw [root?, if_neg (mt isEmpty_iff.1 h), if_neg h]

/-- The root is the first node, if there is one. -/
theorem root?_eq_some_iff {n : Nat} : t.root? = some n ↔ n = 0 ∧ t.contains n := by
  rw [root?_eq, contains_iff]
  by_cases h : t.size = 0
  · simp [h]
  · rw [if_neg h, Option.some.injEq]
    constructor
    · rintro rfl
      exact ⟨rfl, Nat.pos_of_ne_zero h⟩
    · exact fun hn => hn.1.symm

/-- The first node has no parent, since a parent comes earlier. -/
theorem parent?_zero : t.parent? 0 = none := by
  cases h : t.parent? 0 with
  | none => rfl
  | some p => exact absurd (parent?_lt h) (Nat.not_lt_zero p)

/-- What the root has and children inherit, every node has: a parent comes earlier than its children,
so this is induction on the order of insertion. -/
theorem Linked.node_induction (hl : t.Linked) {motive : ∀ n, n < t.size → Prop}
    (root : ∀ hpos : 0 < t.size, motive 0 hpos)
    (child : ∀ p c (hp : p < t.size) (hc : c ∈ t.children p),
      motive p hp → motive c (mem_children_bounds hc).2)
    (n : Nat) (hn : n < t.size) : motive n hn := by
  induction n using Nat.strongRecOn with
  | _ n ih =>
    cases hp : t.parent? n with
    | none =>
      obtain rfl := hl.eq_zero_of_orphan hn hp
      exact root hn
    -- `n` is listed by its parent, for which that is known
    | some p =>
      have hlt := parent?_lt hp
      exact child p n (Nat.lt_trans hlt hn) (hl.mem_children_iff.2 hp)
        (ih p hlt (Nat.lt_trans hlt hn))

/-- Child lists lead from the root to every node. -/
theorem Linked.descends (hl : t.Linked) {n : Nat} (hn : n < t.size) :
    Relation.ReflTransGen (fun p c => c ∈ t.children p) 0 n := by
  induction n, hn using hl.node_induction with
  | root => exact .refl
  | child p c _ hc ih => exact ih.tail hc

/-! ## Going up -/

/-- Nothing is above the root. -/
theorem ancestors_zero (t : Tree) : t.ancestors 0 = [] := ancestors_eq_nil parent?_zero

/-- Above a child are its parent and what is above that. -/
theorem Linked.ancestors_child (hl : t.Linked) {n c : Nat} (hc : c ∈ t.children n) :
    t.ancestors c = n :: t.ancestors n :=
  ancestors_eq_cons (hl.mem_children_iff.1 hc)

/-- A child is one step deeper than its parent. -/
theorem Linked.depth_child (hl : t.Linked) {n c : Nat} (hc : c ∈ t.children n) :
    (t.ancestors c).length = (t.ancestors n).length + 1 := by
  rw [hl.ancestors_child hc, List.length_cons]

/-- Only the root is at depth zero. -/
theorem Linked.eq_zero_of_depth (hl : t.Linked) {n : Nat} (hn : n < t.size)
    (hdepth : (t.ancestors n).length = 0) : n = 0 := by
  apply hl.eq_zero_of_orphan hn
  cases hp : t.parent? n with
  | none => rfl
  | some p =>
    rw [ancestors_eq_cons hp, List.length_cons] at hdepth
    exact nomatch hdepth

/-- A node that is not at depth zero has a parent. -/
theorem Linked.exists_parent (hl : t.Linked) {n : Nat} (hpos : 1 ≤ (t.ancestors n).length) :
    ∃ p, n ∈ t.children p := by
  cases hp : t.parent? n with
  | none =>
    rw [ancestors_eq_nil hp] at hpos
    exact absurd hpos (by decide)
  | some p => exact ⟨p, hl.mem_children_iff.2 hp⟩

/-- A node has no more ancestors than there are nodes before it. -/
theorem length_ancestors_le (t : Tree) (n : Nat) : (t.ancestors n).length ≤ n := by
  fun_induction ancestors t n with
  | case1 => simp
  | case2 n p hp hlt ih =>
    simp only [List.length_cons]
    omega

/-- Following parent links from `n` meets `n`, then its ancestors, and then nothing. -/
theorem iterate_parent? (t : Tree) (k n : Nat) :
    (fun m : Option Nat => m.bind t.parent?)^[k] (some n) = (n :: t.ancestors n)[k]? := by
  induction k generalizing n with
  | zero => rfl
  | succ k ih =>
    rw [Function.iterate_succ_apply, Option.bind_some]
    cases hp : t.parent? n with
    | none =>
      -- past the root the walk stays at `none`
      rw [ancestors_eq_nil hp, Function.iterate_fixed rfl]
      rfl
    | some p => rw [ih, ancestors_eq_cons hp, List.getElem?_cons_succ]

/-- What `isAncestor` looks for is met by following parent links, in fewer steps than there are
nodes. -/
theorem isAncestor_eq_true_iff {a n : Nat} : t.isAncestor a n = true ↔ ∃ k, 0 < k ∧ k < t.size ∧
    (fun m : Option Nat => m.bind t.parent?)^[k] (some n) = some a := by
  simp only [iterate_parent?, isAncestor, List.contains_iff_mem, List.mem_iff_getElem?]
  constructor
  · rintro ⟨k, hk⟩
    have hlen : k < (t.ancestors n).length := (List.getElem?_eq_some_iff.1 hk).1
    -- a node with an ancestor has a parent, and so is a known one
    have hn : n < t.size := by
      cases hp : t.parent? n with
      | none =>
        rw [ancestors_eq_nil hp] at hlen
        exact absurd hlen (Nat.not_lt_zero k)
      | some p => exact lt_size_of_parent? hp
    have hle := length_ancestors_le t n
    exact ⟨k + 1, Nat.succ_pos k, by omega, hk⟩
  · rintro ⟨k, hpos, -, hk⟩
    obtain ⟨k, rfl⟩ := Nat.exists_eq_succ_of_ne_zero (Nat.ne_of_gt hpos)
    exact ⟨k, hk⟩

/-- The way to a node without a parent is that node. -/
theorem lineage_eq_singleton {n : Nat} (h : t.parent? n = none) : t.lineage n = [n] := by
  rw [lineage, ancestors_eq_nil h]
  rfl

/-- The way down to a node goes on from the way down to its parent. -/
theorem lineage_eq_concat {n p : Nat} (h : t.parent? n = some p) :
    t.lineage n = t.lineage p ++ [n] := by
  rw [lineage, ancestors_eq_cons h, List.reverse_cons]
  rfl

/-- On the way to a node are that node and its ancestors. -/
theorem mem_lineage {m n : Nat} : m ∈ t.lineage n ↔ m = n ∨ m ∈ t.ancestors n := by
  rw [lineage, List.mem_reverse, List.mem_cons]

/-- The way to a node meets no node twice, so it is no longer than the tree is large. -/
theorem length_lineage_le {n : Nat} (hn : n < t.size) : (t.lineage n).length ≤ t.size := by
  have := length_ancestors_le t n
  simp only [lineage, List.length_reverse, List.length_cons]
  omega

/-- The way to a known node leads over known nodes. -/
theorem lt_size_of_mem_lineage {m n : Nat} (hn : n < t.size) (h : m ∈ t.lineage n) :
    m < t.size := by
  rcases mem_lineage.1 h with rfl | h
  · exact hn
  · exact Nat.lt_trans (lt_of_mem_ancestors h) hn

/-- Every node on the way from the root to a known node has a label. -/
theorem map_label?_lineage {n : Nat} (hn : n < t.size) :
    (t.lineage n).map t.label? = ((t.lineage n).map t.labelAt).map some := by
  rw [List.map_map]
  apply List.map_congr_left
  intro m hm
  exact label?_eq_some (lt_size_of_mem_lineage hn hm)

/-- The path of a node is written from the labels on the way down to it. -/
theorem path?_eq_some {n : Nat} (hn : n < t.size) :
    t.path? n = some (PathStructure.ofSegments ((t.lineage n).map t.labelAt)) := by
  -- no label is missing on the way, so leaving out missing ones leaves out nothing
  have hlabels : (t.lineage n).filterMap t.label? = (t.lineage n).map t.labelAt := by
    have hmap := congrArg (List.filterMap id) (map_label?_lineage hn)
    rw [List.filterMap_map, List.filterMap_map] at hmap
    simpa using hmap
  rw [path?, if_pos (contains_iff.2 hn), hlabels]

end ComboTree.Tree
