import ComboTree.Proofs.Links

/-!
# A tree and what it grows into

Nodes are only added, and only after those that are there; so a grown tree answers every question
about an old node as before, but for the end of its list of children.  `Grows` says so, and what was
found by going up from a node, or down along first children with given labels, is found again.

## Key results

- `grows_addChildren`, `grows_attachLevels`: adding children makes a tree grow
- `Grows.ancestors_eq`: the way up stays the same
- `Grows.findChild?`, `Grows.descend?`: the first child with a label stays the first
-/

namespace ComboTree.Tree

variable {t u : Tree}

/-- The nodes of `t` are the first nodes of `u`, where they may have more children. -/
structure Grows (t u : Tree) : Prop where
  size_le : t.size ≤ u.size
  label?_eq : ∀ {n}, n < t.size → u.label? n = t.label? n
  parent?_eq : ∀ {n}, n < t.size → u.parent? n = t.parent? n
  children_prefix : ∀ n, t.children n <+: u.children n

/-- A tree has grown into itself. -/
theorem Grows.refl (t : Tree) : t.Grows t where
  size_le := Nat.le_refl _
  label?_eq := fun _ => rfl
  parent?_eq := fun _ => rfl
  children_prefix := fun _ => List.prefix_refl _

/-- A tree that has grown twice has grown. -/
theorem Grows.trans {v : Tree} (h : t.Grows u) (h' : u.Grows v) : t.Grows v where
  size_le := Nat.le_trans h.size_le h'.size_le
  label?_eq := fun hn => (h'.label?_eq (Nat.lt_of_lt_of_le hn h.size_le)).trans (h.label?_eq hn)
  parent?_eq := fun hn => (h'.parent?_eq (Nat.lt_of_lt_of_le hn h.size_le)).trans (h.parent?_eq hn)
  children_prefix := fun n => (h.children_prefix n).trans (h'.children_prefix n)

/-- The step: more children below one node, or none below an unknown one. -/
theorem grows_addChildren (t : Tree) (parent : Nat) (labels : List String) :
    t.Grows (t.addChildren parent labels) := by
  by_cases h : parent < t.size
  · -- each field is what `addChildren` does to an old node
    refine ⟨?_, fun hn => label?_addChildren_of_lt h hn labels,
      fun hn => parent?_addChildren_of_lt h hn labels, fun n => ?_⟩
    · rw [size_addChildren h]
      exact Nat.le_add_right ..
    · rw [children_addChildren h]
      split
      · exact List.prefix_append ..
      · exact List.prefix_refl _
  · rw [addChildren_of_not_lt h]
    exact Grows.refl t

/-- The run: attaching levels only adds nodes. -/
theorem grows_attachLevels (t : Tree) (frontier : List Nat) (choices : List (List String)) :
    t.Grows (t.attachLevels frontier choices) :=
  attachLevels_grow (P := t.Grows)
    (fun u parent labels h => h.trans (grows_addChildren u parent labels)) (Grows.refl t) frontier
    choices

/-- An old node keeps its label, where an unknown one counts as unlabelled. -/
theorem Grows.labelAt_eq (h : t.Grows u) {n : Nat} (hn : n < t.size) :
    u.labelAt n = t.labelAt n := by
  rw [labelAt, h.label?_eq hn, labelAt]

/-- The way up from an old node leads over old nodes, which have the parents they had. -/
theorem Grows.ancestors_eq (h : t.Grows u) {n : Nat} (hn : n < t.size) :
    u.ancestors n = t.ancestors n := by
  induction n using Nat.strongRecOn with
  | _ n ih =>
    have hparent := h.parent?_eq hn
    cases hp : t.parent? n with
    | none => rw [ancestors_eq_nil hp, ancestors_eq_nil (hparent.trans hp)]
    -- the parent is older than `n`, so it is an old node too
    | some p =>
      have hlt := parent?_lt hp
      rw [ancestors_eq_cons hp, ancestors_eq_cons (hparent.trans hp), ih p hlt (by omega)]

/-- What holds of the labels that are there and of the new ones holds of all labels. -/
theorem forall_labelAt_addChildren {P : String → Prop} (h : ∀ n < t.size, P (t.labelAt n))
    {labels : List String} (hlabels : ∀ label ∈ labels, P label) (parent : Nat) :
    ∀ n < (t.addChildren parent labels).size, P ((t.addChildren parent labels).labelAt n) := by
  intro n hn
  by_cases hp : parent < t.size
  · -- a label of the grown tree is an old one or one of the new ones
    rcases (lt_size_addChildren_iff hp).1 hn with hlt | ⟨i, hi, rfl⟩
    · rw [(grows_addChildren t parent labels).labelAt_eq hlt]
      exact h n hlt
    · rw [labelAt_addChildren_new hp hi]
      exact hlabels _ (List.getElem_mem hi)
  · rw [addChildren_of_not_lt hp] at hn ⊢
    exact h n hn

/-! ## First children -/

/-- What is found is a child with the label. -/
theorem findChild?_eq_some {n c : Nat} {label : String} (h : t.findChild? n label = some c) :
    c ∈ t.children n ∧ t.label? c = some label :=
  ⟨List.mem_of_find?_eq_some h, by simpa using List.find?_some h⟩

/-- Where a child has the label, one is found. -/
theorem exists_findChild?_eq_some {n c : Nat} {label : String} (hc : c ∈ t.children n)
    (hlabel : t.label? c = some label) : ∃ m, t.findChild? n label = some m := by
  rw [← Option.isSome_iff_exists, findChild?, List.find?_isSome]
  exact ⟨c, hc, by simpa using hlabel⟩

/-- The first child with a label is followed by new children only, so it is the first still. -/
theorem Grows.findChild? (h : t.Grows u) {n c : Nat} {label : String}
    (hc : t.findChild? n label = some c) : u.findChild? n label = some c := by
  obtain ⟨rest, hrest⟩ := h.children_prefix n
  have hlabel : ∀ m ∈ t.children n, u.label? m = t.label? m :=
    fun m hm => h.label?_eq (mem_children_bounds hm).2
  -- the same children stand before it, and none of them has the label
  obtain ⟨hlast, before, after, hchildren, hbefore⟩ := List.find?_eq_some_iff_append.1 hc
  refine List.find?_eq_some_iff_append.2 ⟨?_, before, after ++ rest, ?_, fun m hm => ?_⟩
  · rwa [hlabel c (findChild?_eq_some hc).1]
  · rw [← hrest, hchildren, List.append_assoc, List.cons_append]
  · rw [hlabel m (hchildren ▸ List.mem_append_left _ hm)]
    exact hbefore m hm

/-- The first step of a way down. -/
theorem descend?_cons (t : Tree) (n : Nat) (label : String) (labels : List String) :
    t.descend? n (label :: labels) = (t.findChild? n label).bind fun c => t.descend? c labels :=
  rfl

/-- A way down can be gone in two parts. -/
theorem descend?_append (t : Tree) (n : Nat) (first second : List String) :
    t.descend? n (first ++ second) =
      (t.descend? n first).bind fun m => t.descend? m second := by
  induction first generalizing n with
  | nil => rfl
  | cons label first ih => simp only [List.cons_append, descend?_cons, Option.bind_assoc, ih]

/-- Where labels led before, they lead in the grown tree. -/
theorem Grows.descend? (h : t.Grows u) {n m : Nat} {labels : List String}
    (hm : t.descend? n labels = some m) : u.descend? n labels = some m := by
  -- every step of the way goes to a first child, which is the first still
  induction labels generalizing n with
  | nil => exact hm
  | cons label labels ih =>
    obtain ⟨c, hc, hm⟩ := Option.bind_eq_some_iff.1 hm
    rw [descend?_cons, h.findChild? hc]
    exact ih hm

end ComboTree.Tree
