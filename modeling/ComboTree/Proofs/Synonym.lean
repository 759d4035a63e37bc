import ComboTree.Proofs.BreadthFirst
import ComboTree.Proofs.Members
import ComboTree.Proofs.Reachable

/-!
# What a search for synonyms finds

A synonym is a node with the child labels of the reference, in any order, that the rule keeps in
the search.  `IsSynonym` says so without sorting a list and without walking up from a node: labels
are compared by `List.Perm`, and the lineage of a node is what chains of child links lead to and
from.  The search finds a synonym when there is one, and then the one before all others.

## Key results

- `Linked.isAncestor_iff_below`: ancestors, seen from above
- `Linked.passes_iff_isSynonym`: the test that the search makes
- `findSynonym?_decides`: which path the search gives, and when it gives none
-/

namespace ComboTree

namespace Tree

variable {t : Tree} {rule : SynonymRule} {reference c : Nat}

/-! ## Synonyms -/

/-- A chain of child links, one or more, leads from `a` down to `n`. -/
def Below (t : Tree) : Nat → Nat → Prop := Relation.TransGen fun p c => c ∈ t.children p

/-- The rule leaves the node `c` out of the search. -/
def LeftOut (t : Tree) (rule : SynonymRule) (reference c : Nat) : Prop :=
  match rule with
  | .distinctLabel => t.label? c = t.label? reference
  | .distinctNode => c = reference
  | .distinctLineage => c = reference ∨ t.Below c reference ∨ t.Below reference c

/-- A node of the tree with the child labels of the reference, each as often, that is not left
out. -/
structure IsSynonym (t : Tree) (rule : SynonymRule) (reference c : Nat) : Prop where
  known : t.contains c
  same_children : (t.childLabels c).Perm (t.childLabels reference)
  kept : ¬ t.LeftOut rule reference c

/-- The synonym that is nearest to the root and, at its depth, farthest to the left. -/
structure IsFirstSynonym (t : Tree) (rule : SynonymRule) (reference c : Nat) : Prop where
  isSynonym : t.IsSynonym rule reference c
  before : ∀ d, t.IsSynonym rule reference d → d ≠ c → t.Before c d

/-! ## The test -/

/-- The nodes on the way up are those from which child links lead down. -/
theorem Linked.isAncestor_iff_below (hl : t.Linked) {a n : Nat} :
    t.isAncestor a n = true ↔ t.Below a n := by
  rw [isAncestor, List.contains_iff_mem]
  constructor
  · intro h
    -- parents come first in the order of insertion, and the way up goes over the parent
    induction n using Nat.strongRecOn with
    | _ n ih =>
      cases hp : t.parent? n with
      | none =>
        rw [ancestors_eq_nil hp] at h
        exact absurd h List.not_mem_nil
      | some p =>
        have hchild := hl.mem_children_iff.2 hp
        rw [ancestors_eq_cons hp, List.mem_cons] at h
        rcases h with rfl | h
        · exact .single hchild
        · exact .tail (ih p (parent?_lt hp) h) hchild
  · intro h
    induction h with
    | single hchild =>
      rw [hl.ancestors_child hchild]
      exact List.mem_cons_self
    | tail _ hchild ih =>
      rw [hl.ancestors_child hchild]
      exact List.mem_cons_of_mem _ ih

/-- The search leaves out what the rule says, with the lineage seen from above. -/
theorem Linked.excludes_iff_leftOut (hl : t.Linked) :
    rule.excludes t reference c = true ↔ t.LeftOut rule reference c := by
  unfold SynonymRule.excludes LeftOut
  cases rule with
  | distinctLabel => exact decide_eq_true_iff
  | distinctNode => exact decide_eq_true_iff
  | distinctLineage =>
    simp only [Bool.or_eq_true, decide_eq_true_iff, hl.isAncestor_iff_below, or_assoc]

/-- The test that the search makes at each node. -/
def passes (t : Tree) (rule : SynonymRule) (reference c : Nat) : Bool :=
  !rule.excludes t reference c && sameContent (t.childLabels c) (t.childLabels reference)

/-- A known reference is searched for along the breadth-first walk. -/
theorem findSynonym?_of_contains (h : t.contains reference) (rule : SynonymRule) :
    t.findSynonym? rule reference =
      (t.breadthFirst.find? (t.passes rule reference)).bind t.path? := by
  rw [findSynonym?, if_pos h]
  rfl

/-- A known node passes just when it is a synonym. -/
theorem Linked.passes_iff_isSynonym (hl : t.Linked) (hc : c < t.size) :
    t.passes rule reference c = true ↔ t.IsSynonym rule reference c := by
  unfold passes
  rw [Bool.and_eq_true, Bool.not_eq_true', ← Bool.not_eq_true, hl.excludes_iff_leftOut,
    sameContent_iff_perm]
  constructor
  · intro h
    exact ⟨contains_iff.2 hc, h.2, h.1⟩
  · intro h
    exact ⟨h.kept, h.same_children⟩

/-! ## The search -/

/-- Where the search for a known reference stops. -/
theorem Linked.find?_eq_some_iff_isFirstSynonym (hl : t.Linked) :
    t.breadthFirst.find? (t.passes rule reference) = some c ↔
      t.IsFirstSynonym rule reference c := by
  rw [hl.find?_breadthFirst_eq_some_iff]
  -- the search is for nodes that pass, and among known nodes these are the synonyms
  constructor
  · rintro ⟨hc, hpasses, hfirst⟩
    refine ⟨(hl.passes_iff_isSynonym hc).1 hpasses, ?_⟩
    intro d hd hne
    have hknown := contains_iff.1 hd.known
    exact hfirst d hknown ((hl.passes_iff_isSynonym hknown).2 hd) hne
  · rintro ⟨hsynonym, hfirst⟩
    have hknown := contains_iff.1 hsynonym.known
    refine ⟨hknown, (hl.passes_iff_isSynonym hknown).2 hsynonym, ?_⟩
    intro d hd hpasses hne
    exact hfirst d ((hl.passes_iff_isSynonym hd).1 hpasses) hne

/-- The search for a known reference gives nothing just when there is no synonym. -/
theorem Linked.findSynonym?_eq_none_iff (hl : t.Linked) (h : t.contains reference) :
    t.findSynonym? rule reference = none ↔ ∀ c, ¬ t.IsSynonym rule reference c := by
  rw [findSynonym?_of_contains h, Option.bind_eq_none_iff]
  constructor
  · intro hnone c hc
    -- where a node passes the search stops, and the node that it stops at has a path
    have hknown := contains_iff.1 hc.known
    obtain ⟨first, hfirst⟩ := Option.isSome_iff_exists.1 (List.find?_isSome.2
      ⟨c, hl.mem_breadthFirst_iff.2 hknown, (hl.passes_iff_isSynonym hknown).2 hc⟩)
    have hpath := hnone first hfirst
    have hsynonym := (hl.find?_eq_some_iff_isFirstSynonym.1 hfirst).isSynonym
    rw [path?_eq_some (contains_iff.1 hsynonym.known)] at hpath
    exact nomatch hpath
  · intro hnone c hc
    exact absurd (hl.find?_eq_some_iff_isFirstSynonym.1 hc).isSynonym (hnone c)

/-- In every tree that calls lead to, the search gives nothing for a reference that is not there.
For one that is, it gives the path of the first synonym in breadth-first order, and nothing only if
there is no synonym at all. -/
theorem findSynonym?_decides (h : t.Reachable) (rule : SynonymRule) (reference : Nat) :
    (t.isEmpty ∨ ¬ t.contains reference → t.findSynonym? rule reference = none) ∧
    (t.contains reference →
      (t.findSynonym? rule reference = none ↔ ∀ c, ¬ t.IsSynonym rule reference c) ∧
      ∀ path, t.findSynonym? rule reference = some path ↔
        ∃ c, t.IsFirstSynonym rule reference c ∧ t.path? c = some path) := by
  have hl := h.linked
  constructor
  · intro hmissing
    -- no handle names a node of the empty tree
    have hunknown : ¬ t.contains reference := by
      rcases hmissing with hempty | hunknown
      · rw [contains_iff, isEmpty_iff.1 hempty]
        omega
      · exact hunknown
    rw [findSynonym?, if_neg hunknown]
  · intro hknown
    refine ⟨hl.findSynonym?_eq_none_iff hknown, ?_⟩
    intro path
    rw [findSynonym?_of_contains hknown, Option.bind_eq_some_iff]
    simp only [hl.find?_eq_some_iff_isFirstSynonym]

/-- Two nodes with the same two children in different orders, and a handle that names no node. -/
theorem findSynonym?_decides_home :
    let t := (ofRoot "home").afterEdits [.insert {} .literal "/home/a|b",
      .insert {} .literal "/home/a/x|y", .insert {} .literal "/home/b/y|x"]
    (∃ c, t.IsFirstSynonym .distinctLineage 1 c ∧ t.path? c = some "/home/b") ∧
      t.findSynonym? .distinctLineage 7 = none := by
  intro t
  have hsize : t.size = 7 := by unfold t; cbv
  have hfirst : t.breadthFirst.find? (t.passes .distinctLineage 1) = some 2 := by unfold t; cbv
  have hlineage : (t.lineage 2).map t.labelAt = ["home", "b"] := by unfold t; cbv
  have ht : t.Reachable := ⟨_, _, .ofRoot "home", rfl⟩
  have hknown : t.contains 1 := by rw [contains_iff, hsize]; decide
  have hunknown : ¬ t.contains 7 := by rw [contains_iff, hsize]; decide
  have hfound : t.findSynonym? .distinctLineage 1 = some "/home/b" := by
    rw [findSynonym?_of_contains hknown, hfirst, Option.bind_some, path?_eq_some (by omega),
      hlineage]
    rfl
  constructor
  · exact (((findSynonym?_decides ht .distinctLineage 1).2 hknown).2 "/home/b").1 hfound
  · exact (findSynonym?_decides ht .distinctLineage 7).1 (.inr hunknown)

end Tree

end ComboTree
