import ComboTree.Proofs.Insertion

/-!
# Levels and depths

The levels of a tree are read downwards, frontier after frontier, and the depth of a node upwards:
it is the number of its ancestors.  Where links agree, the nodes of level `d` are those of depth
`d`.  What a level shows of the tokens is therefore a matter of the nodes alone, and an insertion,
whose new nodes all have one depth, adds its tokens to that level and to no other.

## Key results

- `mem_getD_levels_iff`: a level holds the nodes of its depth
- `length_levels`, `ne_nil_of_mem_levels`: as many levels as the tree is deep, none of them empty
- `breadthFirst_perm_preorder`: the levels hold what the pre-order lists
- `levelTokens_ne_nil`, `mem_tokensAt_iff`, `mem_tokensAt_addChildren`: the tokens of a depth
-/

namespace ComboTree.Tree

open Combination (labelTokens)

variable {t : Tree}

/-! ## Nodes -/

/-- Level by level, a frontier is followed by the children of its nodes. -/
theorem getD_levelsFrom (t : Tree) (frontier : List Nat) (d : Nat) :
    (t.levelsFrom frontier).getD d [] = (fun ns => ns.flatMap t.children)^[d] frontier := by
  -- an empty frontier stays empty, so it makes no difference where the levels end
  induction d generalizing frontier with
  | zero =>
    by_cases hne : frontier = []
    · subst hne
      rfl
    · rw [levelsFrom_eq_cons hne]
      rfl
  | succ d ih =>
    rw [Function.iterate_succ_apply, ← ih]
    by_cases hne : frontier = []
    · subst hne
      rfl
    · rw [levelsFrom_eq_cons hne, List.getD_cons_succ]

/-- Level `d` holds the nodes that have `d` ancestors. -/
theorem Linked.mem_getD_levels_iff (hl : t.Linked) {n d : Nat} :
    n ∈ t.levels.getD d [] ↔ n < t.size ∧ (t.ancestors n).length = d := by
  rw [levels_eq, getD_levelsFrom]
  -- a level is the children of the one above, and a child has one ancestor more than its parent
  induction d generalizing n with
  | zero =>
    rw [Function.iterate_zero_apply, root?_eq, List.length_eq_zero_iff]
    constructor
    · intro h
      split at h
      · exact nomatch h
      · rename_i hsize
        obtain rfl := List.mem_singleton.1 h
        exact ⟨Nat.pos_of_ne_zero hsize, ancestors_zero t⟩
    · rintro ⟨hn, hancestors⟩
      obtain rfl := hl.eq_zero_of_depth hn (List.length_eq_zero_iff.2 hancestors)
      rw [if_neg (by omega)]
      exact List.mem_singleton_self 0
  | succ d ih =>
    rw [Function.iterate_succ_apply', List.mem_flatMap]
    constructor
    · rintro ⟨p, hp, hn⟩
      rw [hl.depth_child hn, (ih.1 hp).2]
      exact ⟨(mem_children_bounds hn).2, rfl⟩
    · rintro ⟨_, hancestors⟩
      obtain ⟨p, hchild⟩ := hl.exists_parent (n := n) (by omega)
      have hp := mem_children_bounds hchild
      rw [hl.depth_child hchild, Nat.succ.injEq] at hancestors
      exact ⟨p, ih.2 ⟨by omega, hancestors⟩, hchild⟩

/-- There are as many levels as the tree is deep. -/
theorem length_levels (t : Tree) : t.levels.length = t.depth := by
  rw [levels, depth]
  cases t.skeleton? with
  | none => rfl
  | some r => exact r.length_levels

/-- A tree with nodes has a level, that of its root. -/
theorem Linked.levels_ne_nil (hl : t.Linked) (hpos : 0 < t.size) : t.levels ≠ [] := by
  have hroot : 0 ∈ t.levels.getD 0 [] :=
    hl.mem_getD_levels_iff.2 ⟨hpos, by rw [ancestors_zero]; rfl⟩
  intro h
  rw [h] at hroot
  exact absurd hroot List.not_mem_nil

/-- No level is empty. -/
theorem ne_nil_of_mem_levels {level : List Nat} (h : level ∈ t.levels) : level ≠ [] := by
  rintro rfl
  rw [levels] at h
  cases hskeleton : t.skeleton? with
  | none =>
    rw [hskeleton] at h
    exact absurd h List.not_mem_nil
  | some r =>
    rw [hskeleton] at h
    exact r.nil_not_mem_levels h

/-- The walk by levels meets what the walk in pre-order meets. -/
theorem breadthFirst_perm_preorder (t : Tree) : t.breadthFirst.Perm t.preorder := by
  rw [breadthFirst, levels, preorder]
  cases t.skeleton? with
  | none => exact .refl []
  | some r => exact r.levels_perm_preorder

/-- Levels hold known nodes only. -/
theorem lt_size_of_mem_levels {level : List Nat} (h : level ∈ t.levels) {n : Nat} (hn : n ∈ level) :
    n < t.size := by
  have hmem : n ∈ t.breadthFirst := List.mem_flatten.2 ⟨level, h, hn⟩
  exact lt_size_of_mem (t.breadthFirst_perm_preorder.subset hmem)

/-! ## Tokens -/

/-- The tokens that the labels of depth `d` are made of. -/
def tokensAt (t : Tree) (d : Nat) : List String := t.levelTokens (t.levels.getD d [])

/-- A token of a level is a piece of the label of one of its nodes. -/
theorem mem_levelTokens_iff {level : List Nat} {token : String} :
    token ∈ t.levelTokens level ↔
      ∃ n ∈ level, n < t.size ∧ token ∈ labelTokens (t.labelAt n) := by
  rw [levelTokens, List.mem_eraseDups, List.mem_flatMap]
  constructor
  · rintro ⟨label, hlabel, htoken⟩
    obtain ⟨n, hn, hlabel⟩ := List.mem_filterMap.1 hlabel
    refine ⟨n, hn, label?_isSome_iff.1 (by rw [hlabel]; rfl), ?_⟩
    rwa [labelAt, hlabel]
  · rintro ⟨n, hn, hlt, htoken⟩
    exact ⟨_, List.mem_filterMap.2 ⟨n, hn, label?_eq_some hlt⟩, htoken⟩

/-- A level has a node, which has a label, and that a piece at least. -/
theorem levelTokens_ne_nil {level : List Nat} (h : level ∈ t.levels) : t.levelTokens level ≠ [] := by
  obtain ⟨n, hn⟩ := List.exists_mem_of_ne_nil level (ne_nil_of_mem_levels h)
  obtain ⟨token, htoken⟩ := List.exists_mem_of_ne_nil (labelTokens (t.labelAt n))
    (Text.pieces_ne_nil _ _)
  exact List.ne_nil_of_mem (mem_levelTokens_iff.2 ⟨n, hn, lt_size_of_mem_levels h hn, htoken⟩)

/-- Without validation a tree with a root is written from its label and the tokens of the levels
below it. -/
theorem collapse_false_of_pos (hpos : 0 < t.size) : t.collapse false =
    .ok (PathStructure.serialize (t.labelAt 0) (t.levels.tail.map t.levelTokens)) := by
  rw [collapse, root?_eq, if_neg (by omega)]
  rfl

/-- Collapsing lists the depths from the first one below the root on. -/
theorem getD_levelTokens (t : Tree) (d : Nat) :
    (t.levels.tail.map t.levelTokens).getD d [] = t.tokensAt (d + 1) := by
  rw [tokensAt, List.getD_eq_getElem?_getD, List.getD_eq_getElem?_getD, List.getElem?_map,
    List.getElem?_tail]
  cases t.levels[d + 1]? <;> rfl

/-- A token of a depth is a piece of the label of a node at that depth. -/
theorem Linked.mem_tokensAt_iff (hl : t.Linked) {d : Nat} {token : String} :
    token ∈ t.tokensAt d ↔
      ∃ n < t.size, (t.ancestors n).length = d ∧ token ∈ labelTokens (t.labelAt n) := by
  rw [tokensAt, mem_levelTokens_iff]
  simp only [hl.mem_getD_levels_iff]
  constructor
  · rintro ⟨n, ⟨hn, hd⟩, -, htoken⟩
    exact ⟨n, hn, hd, htoken⟩
  · rintro ⟨n, hn, hd, htoken⟩
    exact ⟨n, ⟨hn, hd⟩, hn, htoken⟩

/-- New children add their tokens one level below their parent. -/
theorem Linked.mem_tokensAt_addChildren (hl : t.Linked) {parent : Nat} (hp : parent < t.size)
    {labels : List String} {d : Nat} {token : String} :
    token ∈ (t.addChildren parent labels).tokensAt d ↔ token ∈ t.tokensAt d ∨
      (t.ancestors parent).length + 1 = d ∧ ∃ label ∈ labels, token ∈ labelTokens label := by
  have hgrows := grows_addChildren t parent labels
  -- the new nodes are one step deeper than their parent, which is as deep as before
  have hdepth : ∀ {i}, i < labels.length → ((t.addChildren parent labels).ancestors
      (t.size + i)).length = (t.ancestors parent).length + 1 := by
    intro i hi
    rw [ancestors_eq_cons (parent?_addChildren_new hp hi), hgrows.ancestors_eq hp, List.length_cons]
  rw [(hl.addChildren parent labels).mem_tokensAt_iff, hl.mem_tokensAt_iff]
  constructor
  · rintro ⟨n, hn, hd, htoken⟩
    rcases (lt_size_addChildren_iff hp).1 hn with hlt | ⟨i, hi, rfl⟩
    · rw [hgrows.ancestors_eq hlt] at hd
      rw [hgrows.labelAt_eq hlt] at htoken
      exact .inl ⟨n, hlt, hd, htoken⟩
    · rw [hdepth hi] at hd
      rw [labelAt_addChildren_new hp hi] at htoken
      exact .inr ⟨hd, labels[i], List.getElem_mem hi, htoken⟩
  · rintro (⟨n, hn, hd, htoken⟩ | ⟨hd, label, hmem, htoken⟩)
    · refine ⟨n, Nat.lt_of_lt_of_le hn hgrows.size_le, ?_, ?_⟩
      · rw [hgrows.ancestors_eq hn, hd]
      · rwa [hgrows.labelAt_eq hn]
    · obtain ⟨i, hi, rfl⟩ := List.getElem_of_mem hmem
      refine ⟨t.size + i, (lt_size_addChildren_iff hp).2 (.inr ⟨i, hi, rfl⟩), ?_, ?_⟩
      · rw [hdepth hi, hd]
      · rwa [labelAt_addChildren_new hp hi]

end ComboTree.Tree
