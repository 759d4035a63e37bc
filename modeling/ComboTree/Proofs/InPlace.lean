import ComboTree.Proofs.Insertion
import ComboTree.Proofs.Reachable

/-!
# Insertions that change a tree in place

`Policy.insert` gives back a tree of its own.  A caller holds one tree, which a call changes: what a
call has done before it fails stays done, and a child that cannot be added is passed over.
`insertInPlace` is the insertion in that form.  It is all or nothing: it fails with the tree as it
was, or every label of the last segment has become a new leaf, below one node and after the
children which that node had.

## Key results

- `Attaches.trans`, `Attaches.unique`: new children one after the other, and the one tree with them
- `attachEach_run`: the loop that adds children one by one
- `insertInPlace_run`: the changed tree is the one that `insert` gives back
- `insertInPlace_all_or_nothing`: what a call leaves behind
-/

namespace ComboTree

open PathStructure (Segmented Offers)

namespace Tree

variable {t u v : Tree} {parent : Nat} {nodes nodes' : List Nat} {labels labels' : List String}

/-! ## New children of one node -/

/-- The tree `u` is `t` with the nodes `nodes` as the last children of `parent`, leaves with the
labels `labels`. -/
structure Attaches (t u : Tree) (parent : Nat) (nodes : List Nat) (labels : List String) :
    Prop where
  known : t.contains parent
  fresh : ∀ n ∈ nodes, ¬ t.contains n
  nodup : nodes.Nodup
  leaves : nodes.map u.node? = labels.map fun label => some (.leaf (some parent) label)
  parent_node : u.node? parent = (t.node? parent).map (·.adopt nodes)
  others : ∀ n, t.contains n → n ≠ parent → u.node? n = t.node? n
  contains_iff : ∀ n, u.contains n ↔ t.contains n ∨ n ∈ nodes
  root?_eq : u.root? = t.root?
  size_eq : u.size = t.size + nodes.length

/-- A block of children is attached with the handles that come next. -/
theorem attaches_addChildren (h : parent < t.size) (labels : List String) :
    t.Attaches (t.addChildren parent labels) parent (List.range' t.size labels.length) labels := by
  have hsize := size_addChildren h labels
  constructor
  case known => exact contains_iff.2 h
  case fresh =>
    intro n hn
    rw [contains_iff]
    have := (List.mem_range'_1.1 hn).1
    omega
  case nodup => exact List.nodup_range' ..
  case leaves =>
    -- the handles count up from the old size, so each is met with the label at its place
    apply List.ext_getElem (by simp)
    intro i hi _
    have hi : i < labels.length := by simpa using hi
    simp [node?_addChildren_of_le h, hi]
  case parent_node =>
    rw [node?_addChildren_of_lt h h]
    simp
  case others =>
    intro n hn hne
    rw [node?_addChildren_of_lt h (contains_iff.1 hn)]
    simp [hne]
  case contains_iff =>
    intro n
    rw [contains_iff, contains_iff, List.mem_range'_1, hsize]
    omega
  case root?_eq =>
    rw [Tree.root?_eq, Tree.root?_eq, hsize, if_neg (by omega), if_neg (by omega)]
  case size_eq => rw [hsize, List.length_range']

/-- Children after children are all of them together. -/
theorem Attaches.trans (h : t.Attaches u parent nodes labels)
    (h' : u.Attaches v parent nodes' labels') :
    t.Attaches v parent (nodes ++ nodes') (labels ++ labels') := by
  -- the second block leaves the first one alone: its nodes are known by then, and not the parent
  have hfirst : ∀ n ∈ nodes, v.node? n = u.node? n := by
    intro n hn
    have hne : n ≠ parent := fun e => h.fresh n hn (e ▸ h.known)
    exact h'.others n ((h.contains_iff n).2 (.inr hn)) hne
  constructor
  case known => exact h.known
  case fresh =>
    intro n hn hold
    rcases List.mem_append.1 hn with hn | hn
    · exact h.fresh n hn hold
    · exact h'.fresh n hn ((h.contains_iff n).2 (.inl hold))
  case nodup =>
    refine List.nodup_append.2 ⟨h.nodup, h'.nodup, ?_⟩
    intro a ha b hb e
    exact h'.fresh b hb ((h.contains_iff b).2 (.inr (e ▸ ha)))
  case leaves =>
    rw [List.map_append, List.map_append, List.map_congr_left hfirst, h.leaves, h'.leaves]
  case parent_node =>
    rw [h'.parent_node, h.parent_node, Option.map_map]
    simp [Function.comp_def, Node.adopt]
  case others =>
    intro n hn hne
    rw [h'.others n ((h.contains_iff n).2 (.inl hn)) hne, h.others n hn hne]
  case contains_iff =>
    intro n
    rw [h'.contains_iff, h.contains_iff, List.mem_append, or_assoc]
  case root?_eq => rw [h'.root?_eq, h.root?_eq]
  case size_eq => rw [h'.size_eq, h.size_eq, List.length_append, Nat.add_assoc]

/-- There is one tree with the new children. -/
theorem Attaches.unique (h : t.Attaches u parent nodes labels)
    (h' : t.Attaches v parent nodes labels) : u = v := by
  have hnew : ∀ n ∈ nodes, u.node? n = v.node? n :=
    List.map_inj_left.1 (h.leaves.trans h'.leaves.symm)
  apply Tree.ext
  apply Array.ext_getElem?
  intro n
  show u.node? n = v.node? n
  -- the parent, the other old nodes, the new ones, and handles that name nothing
  by_cases hold : t.contains n
  · by_cases hne : n = parent
    · rw [hne, h.parent_node, h'.parent_node]
    · rw [h.others n hold hne, h'.others n hold hne]
  · by_cases hn : n ∈ nodes
    · exact hnew n hn
    · -- a handle that names no node of the one names none of the other
      have hu : ¬ u.contains n := by
        rw [h.contains_iff]
        exact not_or.2 ⟨hold, hn⟩
      have hv : ¬ v.contains n := by
        rw [h'.contains_iff]
        exact not_or.2 ⟨hold, hn⟩
      rw [Tree.contains_iff] at hu hv
      rw [node?_eq_none (Nat.not_lt.1 hu), node?_eq_none (Nat.not_lt.1 hv)]

/-- Without labels nothing is added. -/
theorem addChildren_nil (h : parent < t.size) : t.addChildren parent [] = t := by
  have hnone : t.Attaches t parent [] [] := by
    constructor <;> simp [contains_iff, h, Node.adopt]
  exact (attaches_addChildren h []).unique hnone

/-- One label, and then the others. -/
theorem addChildren_cons (h : parent < t.size) (label : String) (labels : List String) :
    (t.addChildren parent [label]).addChildren parent labels =
      t.addChildren parent (label :: labels) := by
  have hone := size_addChildren h [label]
  have hparent : parent < (t.addChildren parent [label]).size := by omega
  -- both trees have the same children attached, with handles that count on from one another
  have hsteps := (attaches_addChildren h [label]).trans (attaches_addChildren hparent labels)
  have hall := attaches_addChildren h (label :: labels)
  rw [hone] at hsteps
  exact hsteps.unique hall

/-- Going down ends at a node of the tree. -/
theorem lt_size_of_descend? {n m : Nat} {labels : List String} (hn : n < t.size)
    (h : t.descend? n labels = some m) : m < t.size := by
  induction labels generalizing n with
  | nil =>
    obtain rfl := Option.some.inj h
    exact hn
  | cons label labels ih =>
    obtain ⟨c, hc, h⟩ := Option.bind_eq_some_iff.1 h
    exact ih (mem_children_bounds (findChild?_eq_some hc).1).2 h

/-- A walk ends at a node of the tree, whether its links agree or not. -/
theorem lt_size_of_walk? {labels : List String} {n : Nat} (h : t.walk? labels = some n) :
    n < t.size := by
  cases labels with
  | nil => exact nomatch h
  | cons label below =>
    obtain ⟨hpos, -, h⟩ := walk?_cons_eq_some_iff.1 h
    exact lt_size_of_descend? hpos h

end Tree

/-! ## Calls -/

/-- A call that may change the tree it is given, and that ends well or with a fault. -/
abbrev InPlace := ExceptT Fault (StateM Tree)

namespace InPlace

/-- A child after those that `parent` has; none if `parent` is not in the tree. -/
def attach (parent : Nat) (label : String) : InPlace (Option Nat) := do
  match (← get).addChild? parent label with
  | some (n, u) =>
    set u
    return some n
  | none => return none

/-- Children one by one, with the handles of those that could be added. -/
def attachEach (parent : Nat) : List String → InPlace (List Nat)
  | [] => return []
  | label :: labels => do
    let added ← attach parent label
    let others ← attachEach parent labels
    return added.toList ++ others

/-- What was done before a fault stays done. -/
theorem run_bind {α β : Type} (call : InPlace α) (next : α → InPlace β) (t : Tree) :
    (call >>= next).run t =
      match call.run t with
      | (.ok a, u) => (next a).run u
      | (.error fault, u) => (.error fault, u) := by
  show ExceptT.bindCont next (call.run t).1 (call.run t).2 = _
  cases call.run t with
  | mk result u => cases result <;> rfl

/-- Looking at the tree leaves it as it is. -/
theorem run_get (t : Tree) : (get : InPlace Tree).run t = (.ok t, t) := rfl

/-- What does not look at the tree leaves it as it is, also when it fails. -/
theorem run_liftExcept {α : Type} (x : Except Fault α) (t : Tree) :
    (liftExcept x : InPlace α).run t = (x, t) := by
  cases x <;> rfl

/-- Below a known node a label is never passed over. -/
theorem attach_run {t : Tree} {parent : Nat} (h : parent < t.size) (label : String) :
    (attach parent label).run t = (.ok (some t.size), t.addChildren parent [label]) := by
  have hadd : t.addChild? parent label = some (t.size, t.addChildren parent [label]) := by
    rw [Tree.addChild?, if_pos h]
  rw [attach, run_bind, run_get]
  dsimp only
  rw [hadd]
  rfl

/-- The loop: below a known node no label is passed over, and the labels make one block. -/
theorem attachEach_run {t : Tree} {parent : Nat} (h : parent < t.size) (labels : List String) :
    (attachEach parent labels).run t =
      (.ok (List.range' t.size labels.length), t.addChildren parent labels) := by
  -- the tree is general, since each label changes it for those after it
  induction labels generalizing t with
  | nil =>
    rw [Tree.addChildren_nil h]
    rfl
  | cons label labels ih =>
    have hone := Tree.size_addChildren h [label]
    have hparent : parent < (t.addChildren parent [label]).size := by omega
    rw [attachEach, run_bind, attach_run h]
    dsimp only
    -- the other labels go to the tree that the first one has left, where the parent is known still
    rw [run_bind, ih hparent, hone, Tree.addChildren_cons h]
    rfl

end InPlace

namespace Policy

open InPlace

/-- The insertion of a path in place: the parent is located and the labels are made first, and then
the children are added one by one. -/
def insertInPlace (policy : Policy) (mode : InsertMode) (path : String) : InPlace (List Nat) := do
  let (parent, added) ← liftExcept (policy.locate (← get) path)
  let labels ← liftExcept (policy.insertedLabels mode added)
  attachEach parent labels

/-- The tree that is changed becomes the tree that `insert` gives back, or stays as it was. -/
theorem insertInPlace_run (policy : Policy) (mode : InsertMode) (path : String) (t : Tree) :
    (policy.insertInPlace mode path).run t =
      match policy.insert mode t path with
      | .ok (nodes, u) => (.ok nodes, u)
      | .error fault => (.error fault, t) := by
  rw [insertInPlace, run_bind, run_get]
  dsimp only
  rw [run_bind, run_liftExcept, insert]
  -- both ways in which a call can fail come before the first child is added
  cases hlocate : policy.locate t path with
  | error fault => rfl
  | ok located =>
    obtain ⟨parent, added⟩ := located
    dsimp only
    rw [run_bind, run_liftExcept]
    cases hlabels : policy.insertedLabels mode added with
    | error fault => simp [bind, Except.bind, hlabels]
    | ok labels =>
      -- the parent that was located is a known node, so the loop adds every label
      obtain ⟨_, _, -, hwalk, -⟩ := locate_eq_ok_iff.1 hlocate
      dsimp only
      rw [attachEach_run (Tree.lt_size_of_walk? hwalk)]
      simp [bind, Except.bind, hlabels, pure, Except.pure]

/-- The labels that stand for the distinct tokens `added`: these themselves, or all combinations of
them in their order. -/
def SegmentLabels (mode : InsertMode) (added labels : List String) : Prop :=
  match mode with
  | .literal => labels = added
  | .combination => labels = combinationLabels added ∧ labels.length = 2 ^ added.length - 1

/-- The labels that are made of distinct tokens are those which stand for them. -/
theorem segmentLabels_of_insertedLabels {policy : Policy} {mode : InsertMode}
    {added labels : List String} (h : policy.insertedLabels mode added = .ok labels)
    (hnodup : added.Nodup) : SegmentLabels mode added labels := by
  cases mode with
  | literal => exact (Except.ok.inj h).symm
  | combination =>
    obtain ⟨-, rfl⟩ := labelsOf_eq_ok_iff.1 h
    refine ⟨rfl, ?_⟩
    rw [combinationLabels, List.length_map, length_combinations,
      List.toFinset_card_of_nodup hnodup]

/-- An insertion in place is all or nothing.  A call that fails leaves the tree as it was.  A call
that succeeds has found the node to which all segments of the path but the last lead, and has added
the labels of the last segment below it, one new leaf each, and changed nothing else. -/
theorem insertInPlace_all_or_nothing (policy : Policy) (mode : InsertMode) (path : String)
    (t u : Tree) :
    (∀ fault, (policy.insertInPlace mode path).run t = (.error fault, u) →
      u = t ∧ policy.insert mode t path = .error fault) ∧
    ∀ nodes, (policy.insertInPlace mode path).run t = (.ok nodes, u) →
      policy.insert mode t path = .ok (nodes, u) ∧
      ∃ above last alternatives parent labels,
        Segmented path (above ++ [last]) ∧ Offers last alternatives ∧
        t.walk? above = some parent ∧ SegmentLabels mode alternatives.eraseDups labels ∧
        t.Attaches u parent nodes labels := by
  rw [insertInPlace_run]
  cases hinsert : policy.insert mode t path with
  | error fault =>
    constructor
    · intro fault' h
      obtain ⟨hfault, rfl⟩ := Prod.mk.inj h
      obtain rfl := Except.error.inj hfault
      exact ⟨rfl, rfl⟩
    · exact fun nodes h => nomatch h
  | ok result =>
    obtain ⟨handles, v⟩ := result
    constructor
    · exact fun fault h => nomatch h
    · intro nodes h
      obtain ⟨hnodes, rfl⟩ := Prod.mk.inj h
      obtain rfl := Except.ok.inj hnodes
      obtain ⟨above, last, parent, added, labels, hsegs, hwalk, htokens, hlabels, rfl, rfl⟩ :=
        insert_eq_ok_iff.1 hinsert
      have hsegmented := PathStructure.segmented_of_segments hsegs
      have hslash := hsegmented.no_slash last (by simp)
      obtain ⟨alternatives, hoffers, -, rfl⟩ :=
        (PathStructure.tokens_eq_ok_iff_offers hslash).1 htokens
      have hnamed := segmentLabels_of_insertedLabels hlabels (List.nodup_eraseDups alternatives)
      have hattaches := Tree.attaches_addChildren (Tree.lt_size_of_walk? hwalk) labels
      exact ⟨rfl, above, last, alternatives, parent, labels, hsegmented, hoffers, hwalk, hnamed,
        hattaches⟩

/-- Two distinct tokens in three alternatives, and a path that leads to no node. -/
theorem insertInPlace_all_or_nothing_home :
    (∃ parent labels, ((insertInPlace {} .combination "/home/b|a|b").run (.ofRoot "home")).1 =
        .ok [1, 2, 3] ∧
      SegmentLabels .combination ["b", "a"] labels ∧
      (Tree.ofRoot "home").Attaches
        ((insertInPlace {} .combination "/home/b|a|b").run (.ofRoot "home")).2 parent [1, 2, 3]
        labels) ∧
    ((insertInPlace {} .literal "/home/x/c").run (.ofRoot "home")).2 = .ofRoot "home" := by
  have hadded : ((insertInPlace {} .combination "/home/b|a|b").run (.ofRoot "home")).1 =
      .ok [1, 2, 3] := by
    rw [insertInPlace_run]
    cbv
  have hmissing : ((insertInPlace {} .literal "/home/x/c").run (.ofRoot "home")).1 =
      .error (.parentNotFound "/home/x/c" "x") := by
    rw [insertInPlace_run]
    cbv
  constructor
  · obtain ⟨-, above, last, alternatives, parent, labels, hsegmented, hoffers, -, hnamed,
      hattaches⟩ := (insertInPlace_all_or_nothing {} .combination "/home/b|a|b" _ _).2 _
        (Prod.ext hadded rfl)
    -- the text has its segments and its alternatives in one way only
    have hsegments : above ++ [last] = ["home", "b|a|b"] :=
      hsegmented.unique ⟨by simp, by decide, by decide⟩
    have hlast : last = "b|a|b" := by simpa using congrArg List.getLast? hsegments
    subst hlast
    rw [PathStructure.offers_iff] at hoffers
    subst hoffers
    exact ⟨parent, labels, hadded, hnamed, hattaches⟩
  · exact ((insertInPlace_all_or_nothing {} .literal "/home/x/c" _ _).1 _
      (Prod.ext hmissing rfl)).1

end Policy

end ComboTree
