import ComboTree.Expansion
import ComboTree.Proofs.Notation
import ComboTree.Proofs.PowerSet

/-!
# Which levels expand, and into what

An expansion that succeeds is a `Tree.product`: the root's label over the combination labels of
each level.  The inversion lemmas here say so with every check that was passed on the way.

## Key results

- `labelsOf_eq_ok_iff`, `labelsOf_eq_error_iff`: the labels of a level within the limit, and the
  fault of one beyond it
- `countNodes_concat`: the nodes that are counted ahead, with a level more
- `expandLevels_eq_ok_iff`, `expand_eq_ok_iff`: the levels that expand, and their tree
-/

namespace ComboTree.Policy

/-- A level within the limit has the labels of all its combinations. -/
theorem labelsOf_eq_ok_iff {policy : Policy} {tokens labels : List String} :
    policy.labelsOf tokens = .ok labels ↔
      tokens.toFinset.card ≤ policy.maxAlternatives ∧ combinationLabels tokens = labels := by
  rw [labelsOf, combinationsWithin_eq]
  -- the limit is checked before any combination is made
  by_cases h : policy.maxAlternatives < tokens.toFinset.card
  · rw [if_pos h]
    simp only [Except.map, reduceCtorEq, false_iff]
    omega
  · rw [if_neg h]
    simp only [Except.map, Except.ok.injEq, combinationLabels]
    exact ⟨fun heq => ⟨by omega, heq⟩, And.right⟩

/-- A level beyond the limit is refused, with the number of its distinct tokens. -/
theorem labelsOf_eq_error_iff {policy : Policy} {tokens : List String} {fault : Fault} :
    policy.labelsOf tokens = .error fault ↔ policy.maxAlternatives < tokens.toFinset.card ∧
      fault = .tooManyAlternatives tokens.toFinset.card policy.maxAlternatives := by
  rw [labelsOf, combinationsWithin_eq]
  by_cases h : policy.maxAlternatives < tokens.toFinset.card
  · rw [if_pos h]
    simp only [Except.map, Except.error.injEq]
    exact ⟨fun heq => ⟨h, heq.symm⟩, fun heq => heq.2.symm⟩
  · rw [if_neg h]
    simp only [Except.map, reduceCtorEq, false_iff]
    exact fun heq => h heq.1

/-- Whole levels: all are within the limit, and each is replaced by its labels. -/
theorem mapM_labelsOf_eq_ok_iff {policy : Policy} {levels : List Level}
    {choices : List (List String)} :
    (levels.mapM fun level => policy.labelsOf level.tokens) = .ok choices ↔
      (∀ level ∈ levels, level.tokens.toFinset.card ≤ policy.maxAlternatives) ∧
        (levels.map fun level => combinationLabels level.tokens) = choices := by
  simp only [List.mapM_eq_ok_iff, labelsOf_eq_ok_iff]
  rw [List.forall₂_and_left, ← List.forall₂_map_left_iff (R := Eq), List.forall₂_eq_eq_eq]

/-- The count never goes beyond the largest number. -/
theorem countNodes_le_largestCount (widths : List Nat) : countNodes widths ≤ largestCount := by
  -- the last step ends with the bound, whatever the steps before it gave
  rcases List.eq_nil_or_concat' widths with rfl | ⟨widths, w, rfl⟩
  · decide
  · rw [countNodes, List.foldl_append]
    exact Nat.min_le_right ..

/-- A level more only adds nodes, also where the count stops. -/
theorem countNodes_concat (widths : List Nat) (w : Nat) :
    countNodes widths ≤ countNodes (widths ++ [w]) := by
  have hle := countNodes_le_largestCount widths
  rw [countNodes] at hle
  simp only [countNodes, List.foldl_append, List.foldl_cons, List.foldl_nil]
  exact Nat.le_min.2 ⟨Nat.le_add_right .., hle⟩

/-- The levels that expand: one root token, every other level within its limit, and the nodes
counted ahead within theirs. -/
theorem expandLevels_eq_ok_iff {policy : Policy} {levels : List Level} {t : Tree} :
    policy.expandLevels levels = .ok t ↔
      ∃ root label below, levels = root :: below ∧ root.tokens = [label] ∧
        (∀ level ∈ below, level.tokens.toFinset.card ≤ policy.maxAlternatives) ∧
        countNodes (below.map fun level => (combinationLabels level.tokens).length) ≤
          policy.maxNodes ∧
        Tree.product label (below.map fun level => combinationLabels level.tokens) = t := by
  constructor
  · intro h
    match levels, h with
    | root :: below, h =>
      rw [expandLevels] at h
      split at h
      · exact nomatch h
      · rename_i label hroot
        -- the labels come first, and only then are the nodes counted
        obtain ⟨choices, hchoices, h⟩ := Except.bind_eq_ok_iff.1 h
        obtain ⟨hlimit, rfl⟩ := mapM_labelsOf_eq_ok_iff.1 hchoices
        dsimp only at h
        split at h
        · exact nomatch h
        · rename_i hcount
          rw [List.map_map] at hcount
          exact ⟨root, label, below, rfl, hroot, hlimit, Nat.not_lt.1 hcount, Except.ok.inj h⟩
      · exact nomatch h
  · rintro ⟨root, label, below, rfl, hroot, hlimit, hcount, rfl⟩
    -- the checks in the order in which they are made, each of them passed
    have hchoices := mapM_labelsOf_eq_ok_iff.2 ⟨hlimit, rfl⟩
    rw [expandLevels, hroot]
    refine Except.bind_eq_ok_iff.2 ⟨_, hchoices, ?_⟩
    have hle : ¬ policy.maxNodes < countNodes
        ((below.map fun level => combinationLabels level.tokens).map List.length) := by
      rw [List.map_map]
      exact Nat.not_lt.2 hcount
    rw [if_neg hle]

/-- A path structure that expands is read as levels that do. -/
theorem expand_eq_ok_iff {policy : Policy} {path : String} {t : Tree} :
    policy.expand path = .ok t ↔ ∃ levels,
      PathStructure.parse policy.strict path = .ok levels ∧ policy.expandLevels levels = .ok t :=
  Except.bind_eq_ok_iff

end ComboTree.Policy
