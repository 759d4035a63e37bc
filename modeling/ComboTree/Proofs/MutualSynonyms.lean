import ComboTree.Proofs.Twins

/-!
# Searches from both ends

To be a synonym is mutual: the child labels of two nodes are compared in any order, and every rule
leaves out of a search from one node those nodes from which it leaves out that one.  So a search
from a node that was found finds something too, and no later than where the first search began.
Nothing is a synonym of itself, and what a rule keeps is kept by the rule that leaves out the
reference alone.

A search gives the path of the node where it stops.  Equal labels below one node give several nodes
one path, so what is said here is about the nodes.

## Key results

- `firstSynonym?`, `findSynonym?_eq_bind`: the node that a search stops at
- `IsSynonym.symm`, `IsSynonym.distinctNode`: from the other end, and under the weakest rule
- `Linked.exists_firstSynonym?`: a search stops at a synonym or before it
- `firstSynonym?_mutual`: searches from both ends, in every tree that calls lead to
-/

namespace ComboTree.Tree

variable {t : Tree} {rule : SynonymRule} {n c m : Nat}

/-! ## The node that is found -/

/-- The node that a search for synonyms of `reference` stops at. -/
def firstSynonym? (t : Tree) (rule : SynonymRule) (reference : Nat) : Option Nat :=
  if t.contains reference then t.breadthFirst.find? (t.passes rule reference) else none

/-- The answer to a search is the path of that node. -/
theorem findSynonym?_eq_bind (t : Tree) (rule : SynonymRule) (n : Nat) :
    t.findSynonym? rule n = (t.firstSynonym? rule n).bind t.path? := by
  by_cases hn : t.contains n
  · rw [findSynonym?_of_contains hn, firstSynonym?, if_pos hn]
  · rw [findSynonym?, firstSynonym?, if_neg hn, if_neg hn]
    rfl

/-- The search stops at the first synonym of a known node. -/
theorem Linked.firstSynonym?_eq_some_iff (hl : t.Linked) :
    t.firstSynonym? rule n = some c ↔ t.contains n ∧ t.IsFirstSynonym rule n c := by
  by_cases hn : t.contains n
  · rw [firstSynonym?, if_pos hn, hl.find?_eq_some_iff_isFirstSynonym]
    exact (and_iff_right hn).symm
  · rw [firstSynonym?, if_neg hn]
    exact iff_of_false nofun fun h => hn h.1

/-- A search for a known node stops at every synonym at the latest. -/
theorem Linked.exists_firstSynonym? (hl : t.Linked) (hn : t.contains n)
    (hc : t.IsSynonym rule n c) :
    ∃ first, t.firstSynonym? rule n = some first ∧ (first = c ∨ t.Before first c) := by
  cases hfound : t.firstSynonym? rule n with
  -- a search that stops nowhere has no synonym to pass over
  | none =>
    have hnone : t.findSynonym? rule n = none := by
      rw [findSynonym?_eq_bind, hfound]
      rfl
    exact absurd hc ((hl.findSynonym?_eq_none_iff hn).1 hnone c)
  | some first =>
    refine ⟨first, rfl, ?_⟩
    have hfirst := (hl.firstSynonym?_eq_some_iff.1 hfound).2
    by_cases hsame : first = c
    · exact .inl hsame
    · exact .inr (hfirst.before c hc (Ne.symm hsame))

/-! ## Rules from both ends -/

/-- What a rule leaves out of a search leaves the reference out of its own. -/
theorem LeftOut.symm (h : t.LeftOut rule n c) : t.LeftOut rule c n := by
  cases rule with
  | distinctLabel => exact Eq.symm h
  | distinctNode => exact Eq.symm h
  -- what is above the one has the other below it
  | distinctLineage =>
    rcases h with hsame | habove | hbelow
    · exact .inl hsame.symm
    · exact .inr (.inr habove)
    · exact .inr (.inl hbelow)

/-- Nothing is a synonym of itself. -/
theorem IsSynonym.ne (h : t.IsSynonym rule n c) : c ≠ n := by
  rintro rfl
  exact h.kept (leftOut_self t rule c)

/-- A synonym has the reference for a synonym, under the same rule. -/
theorem IsSynonym.symm (h : t.IsSynonym rule n c) (hn : t.contains n) : t.IsSynonym rule c n where
  known := hn
  same_children := h.same_children.symm
  kept := fun hleft => h.kept hleft.symm

/-- No rule keeps more than the one that leaves out the reference alone. -/
theorem IsSynonym.distinctNode (h : t.IsSynonym rule n c) : t.IsSynonym .distinctNode n c where
  known := h.known
  same_children := h.same_children
  kept := h.ne

/-! ## Searches from both ends -/

/-- In every tree that calls lead to, with whatever labels: where a search stops at a node, this is
not the reference; a search from it, under the same rule, stops at the reference at the latest; and
one from the reference that leaves out nothing else stops at that node at the latest. -/
theorem firstSynonym?_mutual (h : t.Reachable) (hm : t.firstSynonym? rule n = some m) :
    t.findSynonym? rule n = t.path? m ∧ m ≠ n ∧
    (∃ back, t.firstSynonym? rule m = some back ∧ t.findSynonym? rule m = t.path? back ∧
      (back = n ∨ t.Before back n)) ∧
    ∃ near, t.firstSynonym? .distinctNode n = some near ∧
      t.findSynonym? .distinctNode n = t.path? near ∧ (near = m ∨ t.Before near m) := by
  have hl := h.linked
  obtain ⟨hn, hfirst⟩ := hl.firstSynonym?_eq_some_iff.1 hm
  have hsynonym := hfirst.isSynonym
  -- one search from the node that was found, one from the reference under the weakest rule
  obtain ⟨back, hback, hbefore⟩ := hl.exists_firstSynonym? hsynonym.known (hsynonym.symm hn)
  obtain ⟨near, hnear, hbefore'⟩ := hl.exists_firstSynonym? hn hsynonym.distinctNode
  -- each answer is the path of the node where its search stops
  have hanswer : ∀ {rule' n' c'}, t.firstSynonym? rule' n' = some c' →
      t.findSynonym? rule' n' = t.path? c' := by
    intro rule' n' c' hc'
    rw [findSynonym?_eq_bind, hc']
    rfl
  exact ⟨hanswer hm, hsynonym.ne, ⟨back, hback, hanswer hback, hbefore⟩,
    ⟨near, hnear, hanswer hnear, hbefore'⟩⟩

/-- A search below equal labels stops at another node than the one that it is made from again. -/
theorem firstSynonym?_mutual_twins :
    let t := (ofRoot "home").afterEdits [.addChild 0 "a", .addChild 0 "b", .addChild 0 "a"]
    t.firstSynonym? .distinctLabel 3 = some 2 ∧ 2 ≠ 3 ∧
    (∃ back, t.firstSynonym? .distinctLabel 2 = some back ∧ (back = 3 ∨ t.Before back 3)) ∧
    ∃ near, t.firstSynonym? .distinctNode 3 = some near ∧ (near = 2 ∨ t.Before near 2) := by
  intro t
  have ht : t.Reachable := ⟨_, _, .ofRoot "home", rfl⟩
  have hm : t.firstSynonym? .distinctLabel 3 = some 2 := by unfold t; cbv
  obtain ⟨-, hne, ⟨back, hback, -, hbefore⟩, ⟨near, hnear, -, hbefore'⟩⟩ :=
    firstSynonym?_mutual ht hm
  exact ⟨hm, hne, ⟨back, hback, hbefore⟩, ⟨near, hnear, hbefore'⟩⟩

end ComboTree.Tree
