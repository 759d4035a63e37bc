import ComboTree.Proofs.Expansion
import ComboTree.Proofs.Links
import Mathlib.Data.List.Nodup
import Mathlib.Data.List.Permutation

/-!
# The trees that calls can lead to

A tree starts empty, as a lone root or as an expansion, and then grows by calls that add one child
or insert a path.  A call may fail, with a handle from elsewhere or a path that leads nowhere, and
then changes nothing.

Whatever a call does, it is one `addChildren` (`exists_addChildren_eq_apply`).  So what holds at the
start and is kept by `addChildren` holds of every reachable tree (`Reachable.grow`).

## Key results

- `Reachable.linked`: parent links and child lists agree in every reachable tree
- `orderedTree_of_reachable`: every reachable tree is one ordered tree with the root on top
-/

namespace ComboTree

/-- A call that may add nodes to a tree. -/
inductive Edit where
  /-- One child below a node. -/
  | addChild (parent : Nat) (label : String)
  /-- The last segment of a path, below the node that the others lead to. -/
  | insert (policy : Policy) (mode : InsertMode) (path : String)
deriving Repr

/-- The tree after a call; a call that fails leaves the tree as it was. -/
def Edit.apply (t : Tree) : Edit → Tree
  | addChild parent label =>
    match t.addChild? parent label with
    | some (_, u) => u
    | none => t
  | insert policy mode path =>
    match policy.insert mode t path with
    | .ok (_, u) => u
    | .error _ => t

namespace Tree

/-- The trees that calls start from. -/
inductive Initial : Tree → Prop where
  | empty : Initial empty
  | ofRoot (label : String) : Initial (ofRoot label)
  | expand {policy : Policy} {path : String} {t : Tree} :
    policy.expand path = .ok t → Initial t
  | expandLevels {policy : Policy} {levels : List Level} {t : Tree} :
    policy.expandLevels levels = .ok t → Initial t

/-- The tree after the given calls in turn. -/
def afterEdits (t : Tree) (edits : List Edit) : Tree :=
  edits.foldl Edit.apply t

/-- A tree that some calls lead to from some start. -/
def Reachable (t : Tree) : Prop :=
  ∃ start edits, Initial start ∧ start.afterEdits edits = t

/-- A start is reached by no calls. -/
theorem Initial.reachable {t : Tree} (h : t.Initial) : t.Reachable := ⟨t, [], h, rfl⟩

/-! ## Growing -/

/-- A call adds one block of children; one that fails, below a node that is not there. -/
theorem exists_addChildren_eq_apply (t : Tree) (e : Edit) :
    ∃ parent labels, e.apply t = t.addChildren parent labels := by
  -- a call that fails adds no labels below a handle that is not there
  have hnone : t = t.addChildren t.size [] :=
    (addChildren_of_not_lt (Nat.lt_irrefl _) []).symm
  cases e with
  | addChild parent label =>
    by_cases h : parent < t.size
    · refine ⟨parent, [label], ?_⟩
      simp only [Edit.apply, addChild?, if_pos h]
    · refine ⟨t.size, [], ?_⟩
      simp only [Edit.apply, addChild?, if_neg h]
      exact hnone
  | insert policy mode path =>
    simp only [Edit.apply]
    split
    · rename_i handles u hu
      obtain ⟨⟨parent, added⟩, -, hu⟩ := Except.bind_eq_ok_iff.1 hu
      obtain ⟨labels, -, hu⟩ := Except.bind_eq_ok_iff.1 hu
      exact ⟨parent, labels, (Prod.mk.inj (Except.ok.inj hu)).2.symm⟩
    · exact ⟨t.size, [], hnone⟩

/-- What `addChildren` keeps, every run of calls keeps. -/
theorem afterEdits_grow {P : Tree → Prop}
    (addChildren : ∀ t parent labels, P t → P (t.addChildren parent labels))
    {t : Tree} (h : P t) (edits : List Edit) : P (t.afterEdits edits) := by
  -- whatever a call is and whether it fails, it is one step of the hypothesis
  induction edits generalizing t with
  | nil => exact h
  | cons e edits ih =>
    obtain ⟨parent, labels, he⟩ := exists_addChildren_eq_apply t e
    refine ih (t := e.apply t) ?_
    rw [he]
    exact addChildren t parent labels h

/-- What holds of the start of a run and is kept by `addChildren` holds of every reachable tree. -/
theorem Reachable.grow {P : Tree → Prop} {t : Tree} (h : t.Reachable) (empty : P empty)
    (ofRoot : ∀ label, P (ofRoot label))
    (addChildren : ∀ t parent labels, P t → P (t.addChildren parent labels)) : P t := by
  obtain ⟨start, edits, hstart, rfl⟩ := h
  -- an expansion is levels attached to a lone root
  have hlevels : ∀ {policy : Policy} {levels : List Level} {u : Tree},
      policy.expandLevels levels = .ok u → P u := by
    intro policy levels u hu
    obtain ⟨_, label, _, -, -, -, -, rfl⟩ := Policy.expandLevels_eq_ok_iff.1 hu
    exact attachLevels_grow addChildren (ofRoot label) _ _
  have hP : P start := by
    cases hstart with
    | empty => exact empty
    | ofRoot label => exact ofRoot label
    | expand hu =>
      obtain ⟨_, -, hu⟩ := Policy.expand_eq_ok_iff.1 hu
      exact hlevels hu
    | expandLevels hu => exact hlevels hu
  exact afterEdits_grow addChildren hP edits

/-- Parent links and child lists agree in every reachable tree. -/
theorem Reachable.linked {t : Tree} (h : t.Reachable) : t.Linked :=
  h.grow linked_empty linked_ofRoot fun _ parent labels hl => hl.addChildren parent labels

/-! ## One ordered tree -/

/-- The nodes are those of one ordered tree with the root on top, stored so that each node comes
after its parent.  The last three fields are about walks up: following parent links runs out within
as many steps as there are nodes, `isAncestor` says what such a walk meets, and `path?` finds a
label at each of its nodes. -/
structure OrderedTree (t : Tree) : Prop where
  isEmpty_iff : t.isEmpty = true ↔ t.size = 0
  root?_eq_none_iff : t.root? = none ↔ t.size = 0
  parent?_eq_none_iff : ∀ n, t.contains n → (t.parent? n = none ↔ t.root? = some n)
  parent_earlier : ∀ n p, t.parent? n = some p → t.contains p ∧ p < n
  listed_once : ∀ n p, t.parent? n = some p →
    (t.children p).count n = 1 ∧ ∀ q, q ≠ p → n ∉ t.children q
  child_links_back : ∀ n c, c ∈ t.children n → t.contains c ∧ t.parent? c = some n
  below_root : ∀ n, t.contains n → ∃ root, t.root? = some root ∧
    Relation.ReflTransGen (fun p c => c ∈ t.children p) root n
  walk_ends : ∀ n, t.contains n →
    (fun m : Option Nat => m.bind t.parent?)^[t.size] (some n) = none
  isAncestor_iff : ∀ a n, t.isAncestor a n = true ↔ ∃ k, 0 < k ∧ k < t.size ∧
    (fun m : Option Nat => m.bind t.parent?)^[k] (some n) = some a
  path_exists : ∀ n, t.contains n → (t.lineage n).length ≤ t.size ∧
    ∃ labels, (t.lineage n).map t.label? = labels.map some ∧
      t.path? n = some (PathStructure.ofSegments labels)

/-- Every tree that any calls lead to, failing or not, is one ordered tree. -/
theorem orderedTree_of_reachable {t : Tree} (h : t.Reachable) : t.OrderedTree := by
  have hl := h.linked
  have hroot : ∀ {n}, t.contains n → t.root? = some 0 := by
    intro n hn
    have := contains_iff.1 hn
    rw [root?_eq, if_neg (by omega)]
  constructor
  case isEmpty_iff => exact isEmpty_iff
  case root?_eq_none_iff => simp [root?_eq]
  case parent?_eq_none_iff =>
    intro n hn
    rw [hroot hn, Option.some.injEq]
    constructor
    · exact fun hp => (hl.eq_zero_of_orphan (contains_iff.1 hn) hp).symm
    · rintro rfl
      exact parent?_zero
  case parent_earlier =>
    intro n p hp
    have hlt := parent?_lt hp
    exact ⟨contains_iff.2 (Nat.lt_trans hlt (lt_size_of_parent? hp)), hlt⟩
  case listed_once =>
    intro n p hp
    refine ⟨List.count_eq_one_of_mem (hl.nodup_children p) (hl.mem_children_iff.2 hp), ?_⟩
    -- another list with `n` in it would make its node the parent too
    intro q hq hmem
    rw [hl.mem_children_iff, hp, Option.some.injEq] at hmem
    exact hq hmem.symm
  case child_links_back =>
    intro n c hc
    exact ⟨contains_iff.2 (mem_children_bounds hc).2, hl.mem_children_iff.1 hc⟩
  case below_root =>
    intro n hn
    exact ⟨0, hroot hn, hl.descends (contains_iff.1 hn)⟩
  case walk_ends =>
    intro n hn
    have hle := length_lineage_le (contains_iff.1 hn)
    -- the walk lists the lineage, and after `size` steps it has passed the end of that
    rw [iterate_parent?]
    apply List.getElem?_eq_none
    simpa [lineage] using hle
  case isAncestor_iff => exact fun a n => isAncestor_eq_true_iff
  case path_exists =>
    intro n hn
    have hn := contains_iff.1 hn
    exact ⟨length_lineage_le hn, _, map_label?_lineage hn, path?_eq_some hn⟩

/-- A handle from elsewhere and a path that leads nowhere, between calls that add nodes. -/
theorem orderedTree_afterEdits :
    ((ofRoot "home").afterEdits [.addChild 7 "lost", .insert {} .combination "/home/a|b",
      .insert {} .literal "/nowhere/c", .addChild 1 "c"]).size = 5 ∧
    ((ofRoot "home").afterEdits [.addChild 7 "lost", .insert {} .combination "/home/a|b",
      .insert {} .literal "/nowhere/c", .addChild 1 "c"]).OrderedTree :=
  ⟨by cbv, orderedTree_of_reachable ⟨_, _, .ofRoot "home", rfl⟩⟩

end Tree

end ComboTree
