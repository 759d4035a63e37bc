import ComboTree.Proofs.Product
import Mathlib.Algebra.BigOperators.Ring.List
import Mathlib.Data.List.Infix

/-!
# How many nodes an expansion has

Levels are refused on a count that is made before any node is.  That count stops at `largestCount`,
at each step of its way; `nodeCount` is the number itself.  The two agree as far as counting goes,
also where a level without labels follows a level that was too wide to count, and the tree that is
made then has `nodeCount` nodes.  So the limit that is checked ahead is one of the tree.

## Key results

- `nodeCount_cons`, `nodeCount_concat`: one level more, above or below
- `countNodes_eq_min`: what is counted ahead
- `size_attachLevels`, `size_product`: what is made
- `expandLevels_eq_error_iff`: which levels are refused, and why
- `expandLevels_decides`: what becomes of any levels
-/

namespace ComboTree

/-! ## The number itself -/

/-- The nodes of a tree whose levels below the root multiply by `widths`: one product for each
depth, `1 + w₁ + w₁ * w₂ + …`. -/
def nodeCount (widths : List Nat) : Nat := (widths.inits.map List.prod).sum

/-- Without levels there is the root alone. -/
@[simp] theorem nodeCount_nil : nodeCount [] = 1 := by
  simp [nodeCount]

/-- Below the root stand `w` trees of the other levels. -/
theorem nodeCount_cons (w : Nat) (widths : List Nat) :
    nodeCount (w :: widths) = 1 + w * nodeCount widths := by
  simp [nodeCount, List.sum_map_mul_left, Function.comp_def]

/-- A level more has as many nodes as all widths multiply to. -/
theorem nodeCount_concat (widths : List Nat) (w : Nat) :
    nodeCount (widths ++ [w]) = nodeCount widths + (widths ++ [w]).prod := by
  simp [nodeCount, List.inits_append]

/-! ## Counting ahead -/

/-- One level of the count: the width of the level, then the nodes up to it. -/
def countStep : Nat × Nat → Nat → Nat × Nat := fun (width, count) w =>
  (min (width * w) largestCount, min (count + min (width * w) largestCount) largestCount)

/-- The count as a fold, with the step by its name. -/
theorem countNodes_eq_foldl (widths : List Nat) :
    countNodes widths = (widths.foldl countStep (1, 1)).2 := rfl

/-- A width that was cut off is cut off again, or it is multiplied by zero and then right. -/
theorem min_mul_largestCount (width w : Nat) :
    min (min width largestCount * w) largestCount = min (width * w) largestCount := by
  rcases Nat.eq_zero_or_pos w with rfl | hw
  · simp
  · rcases Nat.le_total width largestCount with h | h
    · rw [Nat.min_eq_left h]
    · -- both sides are cut off
      have hcut : largestCount ≤ largestCount * w := Nat.le_mul_of_pos_right _ hw
      have hwide : largestCount * w ≤ width * w := Nat.mul_le_mul_right w h
      rw [Nat.min_eq_right h]
      omega

/-- The loop of the count: width and count are those of the levels so far, cut off. -/
theorem foldl_countStep (widths : List Nat) : widths.foldl countStep (1, 1) =
    (min widths.prod largestCount, min (nodeCount widths) largestCount) := by
  -- the fold has the last level as its last step, so levels are added at the end
  induction widths using List.reverseRecOn with
  | nil => decide
  | append_singleton widths w ih =>
    have hwidth := min_mul_largestCount widths.prod w
    simp only [List.foldl_append, List.foldl_cons, List.foldl_nil, ih, countStep, hwidth,
      nodeCount_concat, List.prod_append, List.prod_singleton, Prod.mk.injEq, true_and]
    omega

/-- What is counted ahead is the number of nodes, as far as counting goes. -/
theorem countNodes_eq_min (widths : List Nat) :
    countNodes widths = min (nodeCount widths) largestCount := by
  rw [countNodes_eq_foldl, foldl_countStep]

/-! ## The nodes that are made -/

namespace Tree

variable {t : Tree}

/-- Below each node of the frontier all levels are attached, and none of their nodes is left out. -/
theorem size_attachLevels {frontier : List Nat} (h : ∀ n ∈ frontier, n < t.size)
    (choices : List (List String)) :
    (t.attachLevels frontier choices).size + frontier.length =
      t.size + frontier.length * nodeCount (choices.map List.length) := by
  -- tree and frontier are general: the levels below are attached to the tree that has this one
  induction choices generalizing t frontier with
  | nil => simp [attachLevels]
  | cons labels rest ih =>
    have hsize := size_attachLevel h labels
    -- the next frontier is made of the new handles, which are nodes by then
    have hnext : ∀ n ∈ List.range' t.size (frontier.length * labels.length),
        n < (t.attachLevel frontier labels).size := by
      intro n hn
      have := (List.mem_range'_1.1 hn).2
      omega
    have hrest := ih hnext
    rw [hsize, List.length_range'] at hrest
    rw [attachLevels, List.map_cons, nodeCount_cons, Nat.mul_add, Nat.mul_one, ← Nat.mul_assoc]
    omega

/-- A product has a node for each way down from its root, however far. -/
theorem size_product (root : String) (choices : List (List String)) :
    (product root choices).size = nodeCount (choices.map List.length) := by
  have hroot : ∀ n ∈ [0], n < (ofRoot root).size := by
    simp [size_ofRoot]
  have h := size_attachLevels hroot choices
  rw [size_ofRoot, List.length_singleton, Nat.one_mul] at h
  rw [product]
  omega

end Tree

/-! ## Levels -/

/-- How many labels each of the levels has: one for each non-empty set of its tokens. -/
def widthsOf (levels : List Level) : List Nat :=
  levels.map fun level => 2 ^ level.tokens.toFinset.card - 1

/-- A level of so many distinct tokens has a label for each of their combinations. -/
theorem map_length_combinationLabels (levels : List Level) :
    (levels.map fun level => combinationLabels level.tokens).map List.length =
      widthsOf levels := by
  simp [widthsOf, combinationLabels, length_combinations]

/-- Counting stops at the greatest machine word. -/
theorem largestCount_eq : largestCount = 2 ^ 64 - 1 := rfl

/-- What is wrong with levels: the first of these that applies. -/
inductive LevelsProblem (policy : Policy) : List Level → Fault → Prop where
  | noLevels : LevelsProblem policy [] .noLevels
  | noRootToken {root : Level} {below : List Level} :
    root.tokens = [] →
    LevelsProblem policy (root :: below) .noLevels
  | rootAlternatives {root : Level} {below : List Level} :
    1 < root.tokens.length →
    LevelsProblem policy (root :: below) (.rootAlternatives ("|".intercalate root.tokens))
  | tooManyAlternatives {root level : Level} {before after : List Level} :
    root.tokens.length = 1 →
    -- the levels above are within the limit
    (∀ l ∈ before, l.tokens.toFinset.card ≤ policy.maxAlternatives) →
    policy.maxAlternatives < level.tokens.toFinset.card →
    LevelsProblem policy (root :: (before ++ level :: after))
      (.tooManyAlternatives level.tokens.toFinset.card policy.maxAlternatives)
  | tooManyNodes {root : Level} {below : List Level} :
    root.tokens.length = 1 →
    (∀ l ∈ below, l.tokens.toFinset.card ≤ policy.maxAlternatives) →
    policy.maxNodes < min (nodeCount (widthsOf below)) (2 ^ 64 - 1) →
    LevelsProblem policy (root :: below)
      (.tooManyNodes (min (nodeCount (widthsOf below)) (2 ^ 64 - 1)) policy.maxNodes)

namespace Policy

variable {policy : Policy} {levels : List Level}

/-- The nodes of levels that are within their limits, as they are counted ahead. -/
theorem countNodes_labels (levels : List Level) :
    countNodes ((levels.map fun level => combinationLabels level.tokens).map List.length) =
      min (nodeCount (widthsOf levels)) (2 ^ 64 - 1) := by
  rw [map_length_combinationLabels, countNodes_eq_min, largestCount_eq]

/-- Levels below a root token: each is looked at, and then the nodes are counted. -/
theorem expandLevels_cons {root : Level} {label : String} (hroot : root.tokens = [label])
    (below : List Level) : policy.expandLevels (root :: below) =
      (below.mapM fun level => policy.labelsOf level.tokens).bind fun choices =>
        if policy.maxNodes < countNodes (choices.map List.length) then
          .error (.tooManyNodes (countNodes (choices.map List.length)) policy.maxNodes)
        else
          .ok (Tree.product label choices) := by
  rw [expandLevels, hroot]
  rfl

/-- A root level with no token or several is refused at once. -/
theorem expandLevels_cons_eq_error {root : Level} (hroot : root.tokens.length ≠ 1)
    (below : List Level) : policy.expandLevels (root :: below) =
      .error (if root.tokens = [] then .noLevels
        else .rootAlternatives ("|".intercalate root.tokens)) := by
  rw [expandLevels]
  -- no token, one or more: the middle case is excluded
  rcases hone : root.tokens with _ | ⟨first, _ | ⟨second, rest⟩⟩
  · rfl
  · rw [hone] at hroot
    exact absurd rfl hroot
  · rfl

/-- Below one root token the problem is a level beyond the limit, or else the number of nodes. -/
theorem levelsProblem_of_expandLevels_cons {root : Level} {label : String} {below : List Level}
    {fault : Fault} (hroot : root.tokens = [label])
    (h : policy.expandLevels (root :: below) = .error fault) :
    LevelsProblem policy (root :: below) fault := by
  have hone : root.tokens.length = 1 := by
    rw [hroot]
    rfl
  rw [expandLevels_cons hroot] at h
  rcases Except.bind_eq_error_iff.1 h with h | ⟨choices, hchoices, h⟩
  · -- the first level that has no labels is the first one beyond the limit
    obtain ⟨before, level, after, rfl, hbefore, hlevel⟩ := List.mapM_eq_error_iff.1 h
    obtain ⟨hlimit, rfl⟩ := labelsOf_eq_error_iff.1 hlevel
    refine .tooManyAlternatives hone (fun l hl => ?_) hlimit
    obtain ⟨labels, hlabels⟩ := hbefore l hl
    exact (labelsOf_eq_ok_iff.1 hlabels).1
  · -- all levels have labels, so what is left to fail is the count
    obtain ⟨hlimit, rfl⟩ := mapM_labelsOf_eq_ok_iff.1 hchoices
    rw [countNodes_labels] at h
    split at h
    · rename_i hcount
      obtain rfl := Except.error.inj h
      exact .tooManyNodes hone hlimit hcount
    · exact nomatch h

/-- Levels are refused for their first problem. -/
theorem expandLevels_eq_error_iff {fault : Fault} :
    policy.expandLevels levels = .error fault ↔ LevelsProblem policy levels fault := by
  constructor
  · intro h
    cases levels with
    | nil =>
      obtain rfl := Except.error.inj h
      exact .noLevels
    | cons root below =>
      -- the root level is looked at before all others
      by_cases hone : root.tokens.length = 1
      · obtain ⟨label, hroot⟩ := List.length_eq_one_iff.1 hone
        exact levelsProblem_of_expandLevels_cons hroot h
      · rw [expandLevels_cons_eq_error hone] at h
        obtain rfl := Except.error.inj h
        by_cases hnil : root.tokens = []
        · rw [if_pos hnil]
          exact .noRootToken hnil
        · rw [if_neg hnil]
          have hpos := List.length_pos_iff.2 hnil
          exact .rootAlternatives (by omega)
  · intro h
    -- each problem leads to its own fault, since all that is looked at before it is in order
    cases h with
    | noLevels => rfl
    | noRootToken hroot => rw [expandLevels_cons_eq_error (by simp [hroot]), if_pos hroot]
    | rootAlternatives hmany =>
      have hnil := List.length_pos_iff.1 (Nat.zero_lt_of_lt hmany)
      rw [expandLevels_cons_eq_error (by omega), if_neg hnil]
    | @tooManyAlternatives root level before after hone hbefore hlimit =>
      obtain ⟨label, hroot⟩ := List.length_eq_one_iff.1 hone
      rw [expandLevels_cons hroot]
      refine Except.bind_eq_error_iff.2 (.inl (List.mapM_eq_error_iff.2
        ⟨before, level, after, rfl, fun l hl => ?_, labelsOf_eq_error_iff.2 ⟨hlimit, rfl⟩⟩))
      exact ⟨_, labelsOf_eq_ok_iff.2 ⟨hbefore l hl, rfl⟩⟩
    | @tooManyNodes root below hone hlimit hcount =>
      obtain ⟨label, hroot⟩ := List.length_eq_one_iff.1 hone
      rw [expandLevels_cons hroot, mapM_labelsOf_eq_ok_iff.2 ⟨hlimit, rfl⟩]
      refine (if_pos ?_).trans ?_
      · rwa [countNodes_labels]
      · rw [countNodes_labels]

/-- The depths of the levels are not looked at. -/
theorem expandLevels_congr {others : List Level}
    (h : others.map Level.tokens = levels.map Level.tokens) :
    policy.expandLevels others = policy.expandLevels levels := by
  match others, levels, h with
  | [], [], _ => rfl
  | root :: below, root' :: below', h =>
    obtain ⟨hroot, hbelow⟩ := List.cons.inj h
    have hlabels : (below.mapM fun level => policy.labelsOf level.tokens) =
        below'.mapM fun level => policy.labelsOf level.tokens := by
      have hmap := congrArg (List.mapM policy.labelsOf) hbelow
      rwa [List.mapM_map, List.mapM_map] at hmap
    rw [expandLevels, expandLevels, hroot, hlabels]

/-- Levels that expand have one root token and are within their limits, and their tree has as many
nodes as they multiply to. -/
theorem expandLevels_eq_ok_iff_nodeCount {size : Nat} :
    (∃ t, policy.expandLevels levels = .ok t ∧ t.size = size) ↔
      ∃ root below, levels = root :: below ∧ root.tokens.length = 1 ∧
        (∀ level ∈ below, level.tokens.toFinset.card ≤ policy.maxAlternatives) ∧
        min (nodeCount (widthsOf below)) (2 ^ 64 - 1) ≤ policy.maxNodes ∧
        size = nodeCount (widthsOf below) := by
  -- what is made and what is counted ahead, each by its own lemma
  have hmade : ∀ (label : String) (below : List Level),
      (Tree.product label (below.map fun level => combinationLabels level.tokens)).size =
        nodeCount (widthsOf below) := by
    intro label below
    rw [Tree.size_product, map_length_combinationLabels]
  have hcounted := countNodes_labels
  simp only [List.map_map, Function.comp_def] at hcounted
  constructor
  · rintro ⟨t, ht, rfl⟩
    obtain ⟨root, label, below, rfl, hroot, hlimit, hcount, rfl⟩ := expandLevels_eq_ok_iff.1 ht
    rw [hcounted] at hcount
    exact ⟨root, below, rfl, by simp [hroot], hlimit, hcount, hmade label below⟩
  · rintro ⟨root, below, rfl, hone, hlimit, hcount, rfl⟩
    obtain ⟨label, hroot⟩ := List.length_eq_one_iff.1 hone
    rw [← hcounted] at hcount
    exact ⟨_, expandLevels_eq_ok_iff.2 ⟨root, label, below, rfl, hroot, hlimit, hcount, rfl⟩,
      hmade label below⟩

/-- Levels are refused exactly for their first problem: no level or no root token, then several root
tokens, then the first level beyond the limit of alternatives, then more nodes than the limit.
All others expand, whatever their depths say, into a tree with as many nodes as the levels multiply
to.  Where the limit can be reached by counting, no tree is beyond it, and the number counted ahead
is that of the nodes made. -/
theorem expandLevels_decides (policy : Policy) (levels : List Level) :
    (∀ fault, policy.expandLevels levels = .error fault ↔ LevelsProblem policy levels fault) ∧
    (∀ size, (∃ t, policy.expandLevels levels = .ok t ∧ t.size = size) ↔
      ∃ root below, levels = root :: below ∧ root.tokens.length = 1 ∧
        (∀ level ∈ below, level.tokens.toFinset.card ≤ policy.maxAlternatives) ∧
        min (nodeCount (widthsOf below)) (2 ^ 64 - 1) ≤ policy.maxNodes ∧
        size = nodeCount (widthsOf below)) ∧
    (policy.maxNodes < 2 ^ 64 - 1 → ∀ t, policy.expandLevels levels = .ok t →
      t.size ≤ policy.maxNodes ∧
      ∀ choices, (levels.tail.mapM fun level => policy.labelsOf level.tokens) = .ok choices →
        countNodes (choices.map List.length) = t.size) ∧
    ∀ others : List Level, others.map Level.tokens = levels.map Level.tokens →
      policy.expandLevels others = policy.expandLevels levels := by
  refine ⟨fun fault => expandLevels_eq_error_iff, fun size => expandLevels_eq_ok_iff_nodeCount, ?_,
    fun others h => expandLevels_congr h⟩
  intro hlarge t ht
  obtain ⟨root, below, rfl, -, -, hcount, hsize⟩ := expandLevels_eq_ok_iff_nodeCount.1 ⟨t, ht, rfl⟩
  -- the limit is below where counting stops, so nothing was cut off
  have hexact : nodeCount (widthsOf below) ≤ policy.maxNodes := by omega
  refine ⟨hsize ▸ hexact, fun choices hchoices => ?_⟩
  obtain ⟨-, rfl⟩ := mapM_labelsOf_eq_ok_iff.1 hchoices
  rw [List.tail_cons, countNodes_labels, hsize]
  omega

/-- Two levels of two tokens, one node beyond the limit and just within it. -/
theorem expandLevels_decides_home :
    Policy.expandLevels { maxNodes := 12 } [⟨0, ["home"]⟩, ⟨1, ["a", "b"]⟩, ⟨2, ["c", "d", "c"]⟩] =
      .error (.tooManyNodes 13 12) ∧
    ∃ t, Policy.expandLevels { maxNodes := 13 }
      [⟨0, ["home"]⟩, ⟨1, ["a", "b"]⟩, ⟨2, ["c", "d", "c"]⟩] = .ok t ∧ t.size = 13 := by
  have hcount : nodeCount (widthsOf [⟨1, ["a", "b"]⟩, ⟨2, ["c", "d", "c"]⟩]) = 13 := by decide
  have hlimit : ∀ level ∈ [Level.mk 1 ["a", "b"], ⟨2, ["c", "d", "c"]⟩],
      level.tokens.toFinset.card ≤ 12 := by decide
  obtain ⟨hrefused, -⟩ := expandLevels_decides { maxNodes := 12 }
    [⟨0, ["home"]⟩, ⟨1, ["a", "b"]⟩, ⟨2, ["c", "d", "c"]⟩]
  obtain ⟨-, hmade, -⟩ := expandLevels_decides { maxNodes := 13 }
    [⟨0, ["home"]⟩, ⟨1, ["a", "b"]⟩, ⟨2, ["c", "d", "c"]⟩]
  refine ⟨(hrefused _).2 ?_, (hmade 13).2 ⟨_, _, rfl, rfl, hlimit, ?_, hcount.symm⟩⟩
  · have hmany : (12 : Nat) < min (nodeCount (widthsOf [⟨1, ["a", "b"]⟩, ⟨2, ["c", "d", "c"]⟩]))
        (2 ^ 64 - 1) := by
      rw [hcount]
      decide
    have h : LevelsProblem { maxNodes := 12 }
        [⟨0, ["home"]⟩, ⟨1, ["a", "b"]⟩, ⟨2, ["c", "d", "c"]⟩] _ := .tooManyNodes rfl hlimit hmany
    rwa [hcount] at h
  · rw [hcount]
    decide

end Policy

end ComboTree
