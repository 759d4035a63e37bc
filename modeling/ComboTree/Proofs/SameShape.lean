import ComboTree.Proofs.BreadthFirst
import ComboTree.Proofs.Renumbering
import Mathlib.GroupTheory.GroupAction.MultipleTransitivity

/-!
# The ordered tree of labels says all but the handles

Two stores may hold their nodes in different orders and still show one ordered tree of labels.  Then
the nodes correspond to each other by their places in pre-order, and a permutation of the handles
takes the one store to the other.  So a tree, as far as links agree, is known up to its handles as
soon as its labels are known in the shape of the tree.

## Key results

- `Rose.eq_of_preorder_eq`: a tree is known from its shape and its pre-order
- `Linked.perm_range_preorder`: the pre-order meets every handle once
- `Renumbers.of_links`: what has to be shown of each handle
- `Linked.exists_renumbers`: one ordered tree of labels, two numberings of it
-/

namespace ComboTree

/-! ## Pre-order -/

namespace Rose

variable {α β : Type}

/-- Other values do not make a tree longer. -/
theorem length_preorder_map (f : α → β) (r : Rose α) :
    (r.map f).preorder.length = r.preorder.length := by
  rw [map_preorder, List.length_map]

/-- Trees of one shape with the same values in pre-order are the same. -/
theorem eq_of_preorder_eq {r s : Rose α} (hshape : r.map (fun _ => ()) = s.map (fun _ => ()))
    (h : r.preorder = s.preorder) : r = s := by
  induction r using induction generalizing s with
  | node a ts ih =>
    obtain ⟨b, us⟩ := s
    rw [map_node, map_node, node.injEq] at hshape
    rw [preorder_node, preorder_node, List.cons.injEq] at h
    obtain ⟨rfl, h⟩ := h
    obtain ⟨-, hshape⟩ := hshape
    congr 1
    -- the trees below, one after the other
    induction ts generalizing us with
    | nil => exact (List.map_eq_nil_iff.1 hshape.symm).symm
    | cons t ts ihs =>
      cases us with
      | nil => exact nomatch hshape
      | cons u us =>
        rw [List.map_cons, List.map_cons, List.cons.injEq] at hshape
        rw [List.flatMap_cons, List.flatMap_cons] at h
        -- of one shape, the first trees take equally much of the pre-order
        have hlength : t.preorder.length = u.preorder.length := by
          rw [← length_preorder_map (fun _ => ()) t, hshape.1, length_preorder_map]
        obtain ⟨hfirst, hrest⟩ := List.append_inj h hlength
        rw [ih t List.mem_cons_self hshape.1 hfirst,
          ihs (fun v hv => ih v (List.mem_cons_of_mem t hv)) us hrest hshape.2]

end Rose

/-- A permutation takes one list to another, if both have no repetitions and are equally long. -/
theorem exists_perm_map_eq {α : Type} {xs ys : List α} (hxs : xs.Nodup) (hys : ys.Nodup)
    (hlength : xs.length = ys.length) : ∃ σ : Equiv.Perm α, xs.map σ = ys := by
  -- lists without repetitions are injections of their places, and permutations act on these
  have htransitive := Equiv.Perm.isMultiplyPretransitive α xs.length
  let first : Fin xs.length ↪ α := ⟨xs.get, List.nodup_iff_injective_get.1 hxs⟩
  let second : Fin xs.length ↪ α :=
    ⟨ys.get ∘ Fin.cast hlength, (List.nodup_iff_injective_get.1 hys).comp (Fin.cast_injective _)⟩
  obtain ⟨σ, hσ⟩ := htransitive.exists_smul_eq first second
  refine ⟨σ, List.ext_getElem (by rw [List.length_map, hlength]) ?_⟩
  intro i hi _
  rw [List.length_map] at hi
  rw [List.getElem_map]
  exact congrArg (fun e => e ⟨i, hi⟩) hσ

namespace Tree

variable {t u : Tree} {σ : Equiv.Perm Nat}

/-- The pre-order meets every node once. -/
theorem Linked.perm_range_preorder (hl : t.Linked) : t.preorder.Perm (List.range t.size) := by
  have hnodup := t.breadthFirst_perm_preorder.nodup_iff.1 hl.nodup_breadthFirst
  refine (List.perm_ext_iff_of_nodup hnodup List.nodup_range).2 fun n => ?_
  rw [← t.breadthFirst_perm_preorder.mem_iff, hl.mem_breadthFirst_iff, List.mem_range]

/-! ## Handle by handle -/

/-- A permutation of handles renumbers a tree if it respects labels and links. -/
theorem Renumbers.of_links (hroot : u.root? = t.root?.map σ)
    (hlabel : ∀ n, u.label? (σ n) = t.label? n)
    (hparent : ∀ n, u.parent? (σ n) = (t.parent? n).map σ)
    (hchildren : ∀ n, u.children (σ n) = (t.children n).map σ) : t.Renumbers u σ where
  root?_eq := hroot
  node?_eq := by
    intro n
    have hlabel := hlabel n
    have hparent := hparent n
    have hchildren := hchildren n
    rw [label?, label?] at hlabel
    rw [parent?, parent?] at hparent
    rw [children, children] at hchildren
    cases hnode : t.node? n with
    | none =>
      rw [hnode] at hlabel
      exact Option.map_eq_none_iff.1 hlabel
    | some node =>
      rw [hnode] at hlabel hparent hchildren
      obtain ⟨node', hnode', hlabel'⟩ := Option.map_eq_some_iff.1 hlabel
      rw [hnode'] at hparent hchildren ⊢
      obtain ⟨label, parent, children⟩ := node
      obtain ⟨label', parent', children'⟩ := node'
      simp only [Option.bind_some, Option.map_some, Option.getD_some] at hparent hchildren hlabel'
      rw [hlabel', hparent, hchildren]
      rfl

/-- Where the subtrees of two nodes correspond, their children do, and the subtrees of these. -/
theorem children_eq_of_map_subtree {n m : Nat} (h : (t.subtree n).map σ = u.subtree m) :
    σ n = m ∧ u.children m = (t.children n).map σ ∧
      ∀ c ∈ t.children n, (t.subtree c).map σ = u.subtree (σ c) := by
  rw [subtree_eq, subtree_eq u, Rose.map_node, List.map_map, Rose.node.injEq] at h
  obtain ⟨hroot, hbelow⟩ := h
  have hchildren : u.children m = (t.children n).map σ := by
    have hvalues := congrArg (List.map Rose.value) hbelow
    simp only [List.map_map, Function.comp_def, Rose.value_map, value_subtree, List.map_id']
      at hvalues
    exact hvalues.symm
  rw [hchildren, List.map_map, List.map_inj_left] at hbelow
  exact ⟨hroot, hchildren, hbelow⟩

/-- Where what is below the roots corresponds, what is below any node does. -/
theorem Linked.map_subtree (hl : t.Linked) (h : (t.subtree 0).map σ = u.subtree 0) {n : Nat}
    (hn : n < t.size) : (t.subtree n).map σ = u.subtree (σ n) := by
  -- from the root down, since each node hands the correspondence on to its children
  induction n, hn using hl.node_induction with
  | root _ => rw [(children_eq_of_map_subtree h).1, h]
  | child p c _ hc ih => exact (children_eq_of_map_subtree ih).2.2 c hc

/-- Two trees whose subtrees below the root correspond, with equal labels and links that agree, are
one tree in two numberings. -/
theorem Linked.renumbers_of_map_subtree (hl : t.Linked) (hl' : u.Linked) (hpos : 0 < t.size)
    (h : (t.subtree 0).map σ = u.subtree 0) (hknown : ∀ n, σ n < u.size ↔ n < t.size)
    (hlabel : ∀ n < t.size, u.labelAt (σ n) = t.labelAt n) : t.Renumbers u σ := by
  have hroot : σ 0 = 0 := (children_eq_of_map_subtree h).1
  have hpos' : 0 < u.size := by
    rw [← hroot]
    exact (hknown 0).2 hpos
  have hchildren : ∀ n < t.size, u.children (σ n) = (t.children n).map σ :=
    fun n hn => (children_eq_of_map_subtree (hl.map_subtree h hn)).2.1
  -- unknown handles go to unknown ones, where there is nothing on either side
  have hnode : ∀ {n}, ¬ n < t.size → t.node? n = none ∧ u.node? (σ n) = none :=
    fun hn => ⟨node?_eq_none (Nat.not_lt.1 hn), node?_eq_none (Nat.not_lt.1 (mt (hknown _).1 hn))⟩
  apply Renumbers.of_links
  · rw [root?_eq, root?_eq, if_neg (by omega), if_neg (by omega), Option.map_some, hroot]
  · intro n
    by_cases hn : n < t.size
    · rw [label?_eq_some hn, label?_eq_some ((hknown n).2 hn), hlabel n hn]
    · rw [label?, label?, (hnode hn).1, (hnode hn).2]
  · intro n
    by_cases hn : n < t.size
    · induction n, hn using hl.node_induction with
      | root _ => rw [hroot, parent?_zero, parent?_zero, Option.map_none]
      | child p c hp hc _ =>
        have hc' : σ c ∈ u.children (σ p) := by
          rw [hchildren p hp]
          exact List.mem_map_of_mem hc
        rw [hl.mem_children_iff.1 hc, hl'.mem_children_iff.1 hc', Option.map_some]
    · rw [parent?, parent?, (hnode hn).1, (hnode hn).2]
      rfl
  · intro n
    by_cases hn : n < t.size
    · exact hchildren n hn
    · rw [children, children, (hnode hn).1, (hnode hn).2]
      rfl

/-! ## The ordered tree of labels -/

/-- The shape of a tree with nodes is what hangs at its root. -/
theorem shape?_of_pos (h : 0 < t.size) : t.shape? = some (t.labelled 0) := by
  rw [shape?_eq, root?_eq, if_neg (by omega)]
  rfl

/-- The pre-order of a tree with nodes is that of what hangs at its root. -/
theorem preorder_of_pos (h : 0 < t.size) : t.preorder = (t.subtree 0).preorder := by
  rw [preorder, skeleton?, root?_eq, if_neg (by omega)]
  rfl

/-- Trees with the same labels in the same shape hold the same nodes, under handles that a
permutation takes to each other. -/
theorem Linked.exists_renumbers (hl : t.Linked) (hl' : u.Linked) (hpos : 0 < t.size)
    (hpos' : 0 < u.size) (h : t.labelled 0 = u.labelled 0) : ∃ σ, t.Renumbers u σ := by
  have hperm := hl.perm_range_preorder
  have hperm' := hl'.perm_range_preorder
  -- the labels in pre-order are the same, one for each node
  have hlabels : t.preorder.map t.labelAt = u.preorder.map u.labelAt := by
    rw [preorder_of_pos hpos, preorder_of_pos hpos', ← Rose.map_preorder, ← Rose.map_preorder]
    exact congrArg Rose.preorder h
  have hlength : t.preorder.length = u.preorder.length := by
    simpa using congrArg List.length hlabels
  have hsize : t.size = u.size := by
    rw [← List.length_range (n := t.size), ← hperm.length_eq, hlength, hperm'.length_eq,
      List.length_range]
  -- so the places in pre-order say which node corresponds to which
  obtain ⟨σ, hσ⟩ := exists_perm_map_eq (hperm.nodup_iff.2 List.nodup_range)
    (hperm'.nodup_iff.2 List.nodup_range) hlength
  have hmem : ∀ n, n ∈ t.preorder ↔ n < t.size := fun n => by rw [hperm.mem_iff, List.mem_range]
  refine ⟨σ, hl.renumbers_of_map_subtree hl' hpos ?_ ?_ ?_⟩
  · apply Rose.eq_of_preorder_eq
    · have hshape := congrArg (Rose.map fun _ => ()) h
      rw [labelled, labelled, Rose.map_map, Rose.map_map] at hshape
      rw [Rose.map_map]
      exact hshape
    · rw [Rose.map_preorder, ← preorder_of_pos hpos, hσ, preorder_of_pos hpos']
  · intro n
    rw [← hmem, ← hsize, ← List.mem_range, hsize, ← hperm'.mem_iff, ← hσ]
    exact List.mem_map_of_injective σ.injective
  · rw [← hσ, List.map_map, List.map_inj_left] at hlabels
    exact fun n hn => (hlabels n ((hmem n).2 hn)).symm

end Tree

end ComboTree
