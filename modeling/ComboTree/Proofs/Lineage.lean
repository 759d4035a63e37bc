import ComboTree.Proofs.Synonym

/-!
# Lineages

The nodes above a node are its parent and those above the parent.  So there is one of them for each
depth less than its own, and the way to it is what the way to the node begins with.

## Key results

- `Linked.below_child_iff`: one step up
- `Linked.depth_lt_of_below`, `Linked.way_prefix_of_below`: how depths and ways compare
- `Linked.exists_below_of_prefix`: every beginning of a way is the way to a node above
- `Linked.comparable_of_below`, `Linked.eq_of_below_of_depth_eq`: in a row, at each depth only one
-/

namespace ComboTree.Tree

variable {t : Tree} {a b n p : Nat}

/-- Above a child are its parent and what is above that. -/
theorem Linked.below_child_iff (hl : t.Linked) (hn : n ∈ t.children p) :
    t.Below a n ↔ a = p ∨ t.Below a p := by
  simp only [← hl.isAncestor_iff_below, isAncestor, List.contains_iff_mem, hl.ancestors_child hn,
    List.mem_cons]

/-- Nothing is above a node without a parent. -/
theorem Linked.not_below_orphan (hl : t.Linked) (h : t.parent? n = none) : ¬ t.Below a n := by
  rw [← hl.isAncestor_iff_below, isAncestor, ancestors_eq_nil h]
  simp

/-- What is above a node is a node of the tree. -/
theorem Below.lt_size (h : t.Below a n) : a < t.size := by
  induction h with
  | single hchild =>
    have := mem_children_bounds hchild
    omega
  | tail _ _ ih => exact ih

/-- What is below a node is a node of the tree. -/
theorem Below.lower_lt_size (h : t.Below a n) : n < t.size := by
  cases h with
  | single hchild => exact (mem_children_bounds hchild).2
  | tail _ hchild => exact (mem_children_bounds hchild).2

/-- A node above is nearer to the root. -/
theorem Linked.depth_lt_of_below (hl : t.Linked) (h : t.Below a n) :
    (t.ancestors a).length < (t.ancestors n).length := by
  induction h with
  | single hchild =>
    rw [hl.depth_child hchild]
    omega
  | tail _ hchild ih =>
    rw [hl.depth_child hchild]
    omega

/-- The way to a node goes on from the ways to those above it. -/
theorem Linked.way_prefix_of_below (hl : t.Linked) (h : t.Below a n) : t.way a <+: t.way n := by
  induction h with
  | single hchild =>
    rw [way_eq_concat (hl.mem_children_iff.1 hchild)]
    exact List.prefix_append ..
  | tail _ hchild ih =>
    rw [way_eq_concat (hl.mem_children_iff.1 hchild)]
    exact ih.trans (List.prefix_append ..)

/-- What the way to a node begins with is the way to a node above it. -/
theorem Linked.exists_below_of_prefix (hl : t.Linked) {labels : List String} (hne : labels ≠ [])
    (h : labels <+: t.way n) (hproper : labels ≠ t.way n) :
    ∃ a, t.Below a n ∧ t.way a = labels := by
  -- up along the parents, which have lesser handles
  induction n using Nat.strongRecOn with
  | _ n ih =>
    cases hp : t.parent? n with
    | none =>
      -- a way of one label begins with no other way
      rw [way_eq_singleton hp] at h hproper
      rcases List.prefix_cons_iff.1 h with hnil | ⟨rest, hcons, hrest⟩
      · exact absurd hnil hne
      · rw [List.prefix_nil.1 hrest] at hcons
        exact absurd hcons hproper
    | some p =>
      have hchild := hl.mem_children_iff.2 hp
      rw [way_eq_concat hp] at h hproper
      have hprefix : labels <+: t.way p := (List.prefix_concat_iff.1 h).resolve_left hproper
      by_cases hparent : labels = t.way p
      · exact ⟨p, .single hchild, hparent.symm⟩
      · obtain ⟨a, ha, hway⟩ := ih p (parent?_lt hp) hprefix hparent
        exact ⟨a, .tail ha hchild, hway⟩

/-- The nodes above one node stand in a row. -/
theorem Linked.comparable_of_below (hl : t.Linked) (ha : t.Below a n) (hb : t.Below b n) :
    a = b ∨ t.Below a b ∨ t.Below b a := by
  -- up from the node that both are above, as long as neither is its parent
  induction n using Nat.strongRecOn with
  | _ n ih =>
    cases hp : t.parent? n with
    | none => exact absurd ha (hl.not_below_orphan hp)
    | some p =>
      -- either one of them is the parent, or both are above it
      rw [hl.below_child_iff (hl.mem_children_iff.2 hp)] at ha hb
      rcases ha with rfl | ha
      · rcases hb with rfl | hb
        · exact .inl rfl
        · exact .inr (.inr hb)
      · rcases hb with rfl | hb
        · exact .inr (.inl ha)
        · exact ih p (parent?_lt hp) ha hb

/-- Of the nodes above a node only one has a given depth. -/
theorem Linked.eq_of_below_of_depth_eq (hl : t.Linked) (ha : t.Below a n) (hb : t.Below b n)
    (hdepth : (t.ancestors a).length = (t.ancestors b).length) : a = b := by
  rcases hl.comparable_of_below ha hb with hsame | habove | hbelow
  · exact hsame
  · exact absurd (hl.depth_lt_of_below habove) (Nat.not_lt.2 hdepth.ge)
  · exact absurd (hl.depth_lt_of_below hbelow) (Nat.not_lt.2 hdepth.le)

end ComboTree.Tree
