import ComboTree.Proofs.BreadthFirst
import ComboTree.Proofs.Reachable

/-!
# What collapsing with validation refuses

A depth is even if all of its nodes have the same child labels in the same order.  Collapsing with
validation compares each node with the leftmost one of its depth, frontier after frontier, and ends
at the first that differs.  So it succeeds just when every depth below the root is even, and then
gives what it gives without validation; otherwise it names the least uneven depth and, there, the
leftmost node that differs from the leftmost of all.

## Key results

- `Linked.divergent?_eq_some_iff`, `Linked.divergent?_eq_none_iff`: what the comparison of one level
  finds
- `collapseLevels_eq_collapseFrom`: collapsing as a loop over frontiers, each checked before it is
  listed
- `Linked.collapseFrom_eq_ok_iff`, `Linked.collapseFrom_eq_error_iff`: what is left of the loop from
  any frontier on
- `validation_decides`: the outcome for a whole tree
-/

namespace ComboTree.Tree

variable {t : Tree} {d n : Nat}

/-! ## Even depths -/

/-- The nodes of depth `d` have the same child labels, in the same order. -/
def EvenAt (t : Tree) (d : Nat) : Prop :=
  ∀ m n, t.contains m → t.contains n → (t.ancestors m).length = d → (t.ancestors n).length = d →
    t.childLabels m = t.childLabels n

/-- `n` is the leftmost of the nodes of depth `d` that satisfy `p`. -/
structure IsLeftmost (t : Tree) (d : Nat) (p : Nat → Prop) (n : Nat) : Prop where
  known : t.contains n
  depth_eq : (t.ancestors n).length = d
  passes : p n
  first : ∀ m, t.contains m → (t.ancestors m).length = d → p m → m ≠ n → t.position n < t.position m

/-- `n` is the leftmost node of depth `d` with other child labels than the leftmost of all. -/
def Diverges (t : Tree) (d n : Nat) : Prop :=
  ∃ leftmost, t.IsLeftmost d (fun _ => True) leftmost ∧
    t.IsLeftmost d (fun m => t.childLabels m ≠ t.childLabels leftmost) n

/-- A divergent node is one of the tree. -/
theorem Diverges.lt_size (h : t.Diverges d n) : n < t.size := by
  obtain ⟨_, _, hn⟩ := h
  exact contains_iff.1 hn.known

/-- A search along a level ends at the leftmost node that passes. -/
theorem Linked.find?_level_eq_some_iff (hl : t.Linked) {p : Nat → Bool} :
    (t.levels.getD d []).find? p = some n ↔ t.IsLeftmost d (fun m => p m = true) n := by
  -- along a level positions rise, so what comes first in the list is leftmost
  rw [(hl.pairwise_getD_levels d).find?_eq_some_iff fun _ _ h => List.lt_asymm h]
  simp only [hl.mem_getD_levels_iff]
  constructor
  · intro ⟨⟨hn, hd⟩, hp, hfirst⟩
    exact ⟨contains_iff.2 hn, hd, hp, fun m hm hmd => hfirst m ⟨contains_iff.1 hm, hmd⟩⟩
  · intro h
    refine ⟨⟨contains_iff.1 h.known, h.depth_eq⟩, h.passes, ?_⟩
    intro m hm
    exact h.first m (contains_iff.2 hm.1) hm.2

/-- A level that starts with `first` has it as its leftmost node. -/
theorem Linked.isLeftmost_iff_eq_head (hl : t.Linked) {first : Nat} {rest : List Nat}
    (hlevel : t.levels.getD d [] = first :: rest) :
    t.IsLeftmost d (fun _ => True) n ↔ n = first := by
  have hfind := hl.find?_level_eq_some_iff (d := d) (n := n) (p := fun _ => true)
  rw [hlevel] at hfind
  simp only [List.find?_cons_of_pos, Option.some.injEq] at hfind
  rw [← hfind, eq_comm]

/-- The comparison of a level finds its divergent node. -/
theorem Linked.divergent?_eq_some_iff (hl : t.Linked) :
    t.divergent? (t.levels.getD d []) = some n ↔ t.Diverges d n := by
  unfold Diverges
  cases hlevel : t.levels.getD d [] with
  | nil =>
    -- a depth without nodes has no leftmost one
    have hnone : ∀ m, ¬ t.IsLeftmost d (fun _ => True) m := by
      intro m h
      have hmem := hl.mem_getD_levels_iff.2 ⟨contains_iff.1 h.known, h.depth_eq⟩
      rw [hlevel] at hmem
      exact List.not_mem_nil hmem
    simp [divergent?, hnone]
  | cons first rest =>
    -- the first node agrees with itself, so searching the others is searching the level
    have hfind := hl.find?_level_eq_some_iff (d := d) (n := n)
      (p := fun m => t.childLabels m ≠ t.childLabels first)
    rw [hlevel, List.find?_cons_of_neg (by simp)] at hfind
    simp only [hl.isLeftmost_iff_eq_head hlevel, exists_eq_left]
    simpa [divergent?] using hfind

/-- The comparison of a level finds nothing if the depth is even. -/
theorem Linked.divergent?_eq_none_iff (hl : t.Linked) :
    t.divergent? (t.levels.getD d []) = none ↔ t.EvenAt d := by
  -- an even depth is one whose nodes are all like the first
  have hmem : ∀ m, m ∈ t.levels.getD d [] ↔ t.contains m ∧ (t.ancestors m).length = d := by
    intro m
    rw [hl.mem_getD_levels_iff, contains_iff]
  unfold EvenAt
  cases hlevel : t.levels.getD d [] with
  | nil =>
    rw [hlevel] at hmem
    constructor
    · intro _ m n hm _ hmd _
      exact absurd ((hmem m).2 ⟨hm, hmd⟩) List.not_mem_nil
    · intro _
      rfl
  | cons first rest =>
    rw [hlevel] at hmem
    have hfirst := (hmem first).1 List.mem_cons_self
    simp only [divergent?, List.find?_eq_none, decide_eq_true_eq, not_not]
    constructor
    · intro h
      -- any two nodes are compared through the first
      have hlike : ∀ m, t.contains m → (t.ancestors m).length = d →
          t.childLabels m = t.childLabels first := by
        intro m hm hmd
        rcases List.mem_cons.1 ((hmem m).2 ⟨hm, hmd⟩) with rfl | hrest
        · rfl
        · exact h m hrest
      intro m n hm hn hmd hnd
      rw [hlike m hm hmd, hlike n hn hnd]
    · intro h m hm
      have hm := (hmem m).1 (List.mem_cons_of_mem first hm)
      exact h m first hm.1 hfirst.1 hm.2 hfirst.2

/-! ## The loop -/

/-- The tokens of a frontier and of all frontiers below it, with the check of each frontier before
its tokens are listed. -/
def collapseFrom (t : Tree) (validate : Bool) (depth : Nat) (frontier : List Nat) :
    Except Fault (List (List String)) :=
  if hend : frontier = [] then .ok []
  else
    have := levelsFrom_eq_cons (t := t) hend
    match if validate then t.divergent? frontier else none with
    | some n => .error (.unevenLevel depth ((t.path? n).getD ""))
    | none =>
      (t.collapseFrom validate (depth + 1) (frontier.flatMap t.children)).map
        (t.levelTokens frontier :: ·)
termination_by (t.levelsFrom frontier).length
decreasing_by simp [this]

/-- The empty frontier ends the loop. -/
theorem collapseFrom_nil (validate : Bool) (depth : Nat) :
    t.collapseFrom validate depth [] = .ok [] := by
  rw [collapseFrom, dif_pos rfl]

/-- One round of the loop. -/
theorem collapseFrom_of_ne_nil {frontier : List Nat} (hne : frontier ≠ []) (validate : Bool)
    (depth : Nat) : t.collapseFrom validate depth frontier =
      match if validate then t.divergent? frontier else none with
      | some n => .error (.unevenLevel depth ((t.path? n).getD ""))
      | none => (t.collapseFrom validate (depth + 1) (frontier.flatMap t.children)).map
          (t.levelTokens frontier :: ·) := by
  rw [collapseFrom, dif_neg hne]

/-- What holds of the empty frontier, and of a frontier when it holds of the next one, holds of
every frontier, since the frontiers run out. -/
theorem frontier_induction {motive : List Nat → Prop} (nil : motive [])
    (step : ∀ frontier, frontier ≠ [] → motive (frontier.flatMap t.children) → motive frontier)
    (frontier : List Nat) : motive frontier := by
  -- the levels from here on are a list that gets shorter with each frontier
  induction hlevels : t.levelsFrom frontier generalizing frontier with
  | nil =>
    by_cases hne : frontier = []
    · rw [hne]
      exact nil
    · rw [levelsFrom_eq_cons hne] at hlevels
      exact nomatch hlevels
  | cons level levels ih =>
    by_cases hne : frontier = []
    · rw [hne]
      exact nil
    · rw [levelsFrom_eq_cons hne] at hlevels
      exact step frontier hne (ih _ (List.cons.inj hlevels).2)

/-- Without the check the loop lists the tokens of every level. -/
theorem collapseFrom_false (depth : Nat) (frontier : List Nat) :
    t.collapseFrom false depth frontier = .ok ((t.levelsFrom frontier).map t.levelTokens) := by
  induction frontier using t.frontier_induction generalizing depth with
  | nil => exact collapseFrom_nil false depth
  | step frontier hne ih =>
    rw [collapseFrom_of_ne_nil hne, ih, levelsFrom_eq_cons hne]
    rfl

/-- With the check it does the same up to the first level with a divergent node. -/
theorem collapseFrom_true (depth : Nat) (frontier : List Nat) :
    t.collapseFrom true depth frontier =
      match ((t.levelsFrom frontier).zipIdx depth).findSome? fun (level, depth) =>
          (t.divergent? level).map fun n => (depth, n) with
      | some (depth, n) => .error (.unevenLevel depth ((t.path? n).getD ""))
      | none => .ok ((t.levelsFrom frontier).map t.levelTokens) := by
  induction frontier using t.frontier_induction generalizing depth with
  | nil => exact collapseFrom_nil true depth
  | step frontier hne ih =>
    rw [collapseFrom_of_ne_nil hne, ih, levelsFrom_eq_cons hne, List.zipIdx_cons,
      List.findSome?_cons, if_pos rfl]
    -- either the search ends at this level, or both sides go on with the next
    cases hdivergent : t.divergent? frontier with
    | some n => simp [hdivergent]
    | none =>
      simp only [hdivergent, Option.map_none]
      generalize List.findSome? _ _ = found
      cases found <;> rfl

/-- Collapsing is the loop over the frontiers below the root. -/
theorem collapseLevels_eq_collapseFrom (t : Tree) (validate : Bool) :
    t.collapseLevels validate =
      t.collapseFrom validate 1 (t.root?.toList.flatMap t.children) := by
  cases validate with
  | false =>
    rw [collapseFrom_false, ← tail_levels_eq]
    rfl
  | true =>
    rw [collapseFrom_true, ← tail_levels_eq]
    rfl

/-! ## The outcome -/

/-- The fault for the least uneven one of the depths from `d` on. -/
def IsFirstUneven (t : Tree) (d : Nat) (fault : Fault) : Prop :=
  ∃ e n path, d ≤ e ∧ (∀ i, d ≤ i → i < e → t.EvenAt i) ∧ t.Diverges e n ∧ t.path? n = some path ∧
    fault = .unevenLevel e path

/-- After a depth comes that of the children. -/
theorem getD_levels_succ (t : Tree) (d : Nat) :
    t.levels.getD (d + 1) [] = (t.levels.getD d []).flatMap t.children := by
  rw [levels_eq, getD_levelsFrom, getD_levelsFrom, Function.iterate_succ_apply']

/-- Below a depth without nodes there are none. -/
theorem getD_levels_eq_nil_of_le {e : Nat} (h : t.levels.getD d [] = []) (hle : d ≤ e) :
    t.levels.getD e [] = [] := by
  induction e, hle using Nat.le_induction with
  | base => exact h
  | succ e _ ih => rw [getD_levels_succ, ih, List.flatMap_nil]

/-- The end of the loop: no depth from the empty frontier on has two nodes to compare. -/
theorem Linked.evenAt_of_getD_levels_eq_nil (hl : t.Linked) (h : t.levels.getD d [] = []) {e : Nat}
    (hle : d ≤ e) : t.EvenAt e := by
  rw [← hl.divergent?_eq_none_iff, getD_levels_eq_nil_of_le h hle]
  rfl

/-- From a frontier on, the loop with the check lists what the one without it lists, if all depths
are even. -/
theorem Linked.collapseFrom_eq_ok_iff (hl : t.Linked) {frontier : List Nat}
    (hfrontier : t.levels.getD d [] = frontier) {levels : List (List String)} :
    t.collapseFrom true d frontier = .ok levels ↔
      (∀ e, d ≤ e → t.EvenAt e) ∧ t.collapseFrom false d frontier = .ok levels := by
  -- the depth is general along with the frontier, which stays the level of that depth
  induction frontier using t.frontier_induction generalizing d levels with
  | nil =>
    rw [collapseFrom_nil, collapseFrom_nil]
    exact ⟨fun h => ⟨fun e => hl.evenAt_of_getD_levels_eq_nil hfrontier, h⟩, fun h => h.2⟩
  | step frontier hne ih =>
    have hnext : t.levels.getD (d + 1) [] = frontier.flatMap t.children := by
      rw [getD_levels_succ, hfrontier]
    have hhere := hl.divergent?_eq_none_iff (d := d)
    rw [hfrontier] at hhere
    rw [collapseFrom_of_ne_nil hne, collapseFrom_of_ne_nil hne, if_pos rfl, if_neg Bool.false_ne_true]
    cases hdivergent : t.divergent? frontier with
    | some n =>
      -- this depth is not even, and the loop ends here
      have huneven : ¬ t.EvenAt d := by
        rw [← hhere, hdivergent]
        exact Option.some_ne_none n
      constructor
      · intro h
        exact nomatch h
      · intro h
        exact absurd (h.1 d (Nat.le_refl d)) huneven
    | none =>
      have heven := hhere.1 hdivergent
      simp only [Except.map_eq_ok_iff, ih hnext]
      constructor
      · intro ⟨below, ⟨hall, hbelow⟩, hlevels⟩
        refine ⟨fun e he => ?_, below, hbelow, hlevels⟩
        by_cases hed : e = d
        · rw [hed]
          exact heven
        · exact hall e (by omega)
      · intro ⟨hall, below, hbelow, hlevels⟩
        exact ⟨below, ⟨fun e he => hall e (by omega), hbelow⟩, hlevels⟩

/-- From a frontier on, the loop with the check fails at the least uneven depth. -/
theorem Linked.collapseFrom_eq_error_iff (hl : t.Linked) {frontier : List Nat}
    (hfrontier : t.levels.getD d [] = frontier) {fault : Fault} :
    t.collapseFrom true d frontier = .error fault ↔ t.IsFirstUneven d fault := by
  induction frontier using t.frontier_induction generalizing d with
  | nil =>
    rw [collapseFrom_nil]
    constructor
    · intro h
      exact nomatch h
    · intro ⟨e, n, _, hle, _, hdiverges, _⟩
      rw [← hl.divergent?_eq_some_iff, getD_levels_eq_nil_of_le hfrontier hle] at hdiverges
      exact nomatch hdiverges
  | step frontier hne ih =>
    have hnext : t.levels.getD (d + 1) [] = frontier.flatMap t.children := by
      rw [getD_levels_succ, hfrontier]
    have hhere := hl.divergent?_eq_none_iff (d := d)
    have hfound := fun n => hl.divergent?_eq_some_iff (d := d) (n := n)
    rw [hfrontier] at hhere
    simp only [hfrontier] at hfound
    rw [collapseFrom_of_ne_nil hne, if_pos rfl]
    cases hdivergent : t.divergent? frontier with
    | some n =>
      have hdiverges := (hfound n).1 hdivergent
      have hpath := path?_eq_some hdiverges.lt_size
      simp only [hpath, Option.getD_some, Except.error.injEq]
      constructor
      · intro h
        exact ⟨d, n, _, Nat.le_refl d, fun i hle hlt => by omega, hdiverges, hpath, h.symm⟩
      · intro ⟨e, m, path, hle, hall, hm, hmpath, hfault⟩
        -- this depth is not even, so it is the least one
        have hed : e = d := by
          by_contra hne
          have := hhere.2 (hall d (Nat.le_refl d) (by omega))
          rw [hdivergent] at this
          exact nomatch this
        subst hed
        have hmn := (hfound m).2 hm
        rw [hdivergent, Option.some.injEq] at hmn
        subst hmn
        rw [hpath, Option.some.injEq] at hmpath
        rw [hfault, hmpath]
    | none =>
      have heven := hhere.1 hdivergent
      simp only [Except.map_eq_error_iff, ih hnext]
      constructor
      · intro ⟨e, n, path, hle, hall, h⟩
        refine ⟨e, n, path, by omega, fun i hi hie => ?_, h⟩
        by_cases hid : i = d
        · rw [hid]
          exact heven
        · exact hall i (by omega) hie
      · intro ⟨e, n, path, hle, hall, hdiverges, h⟩
        -- at this depth nothing diverges, so the least uneven one is further down
        have hed : e ≠ d := by
          rintro rfl
          have := (hfound n).2 hdiverges
          rw [hdivergent] at this
          exact nomatch this
        exact ⟨e, n, path, by omega, fun i hi => hall i (by omega), hdiverges, h⟩

/-- What validation does to a way of collapsing `t`: without it `run` succeeds, and with it `run`
succeeds with the same result if all depths below the root are even, and otherwise fails at the least
one that is not. -/
structure ValidationDecides (t : Tree) {α : Type} (run : Bool → Except Fault α) : Prop where
  unvalidated_ok : ∃ result, run false = .ok result
  ok_iff : ∀ result, run true = .ok result ↔
    (∀ d, 1 ≤ d → t.EvenAt d) ∧ run false = .ok result
  error_iff : ∀ fault, run true = .error fault ↔ t.IsFirstUneven 1 fault

/-- What is made of the result has no part in that. -/
theorem ValidationDecides.map {α β : Type} {run : Bool → Except Fault α}
    (h : t.ValidationDecides run) (f : α → β) : t.ValidationDecides fun v => (run v).map f := by
  constructor
  · obtain ⟨result, hresult⟩ := h.unvalidated_ok
    exact ⟨f result, Except.map_eq_ok_iff.2 ⟨result, hresult, rfl⟩⟩
  · intro result
    simp only [Except.map_eq_ok_iff, h.ok_iff]
    constructor
    · intro ⟨a, ⟨heven, ha⟩, hf⟩
      exact ⟨heven, a, ha, hf⟩
    · intro ⟨heven, a, ha, hf⟩
      exact ⟨a, ⟨heven, ha⟩, hf⟩
  · intro fault
    rw [Except.map_eq_error_iff, h.error_iff]

/-- The text of a tree is made of the tokens of its levels. -/
theorem exists_collapse_eq_map (t : Tree) :
    ∃ f, t.collapse = fun validate => (t.collapseLevels validate).map f := by
  unfold collapse
  -- a tree without nodes collapses to the separator alone, whatever the lists are
  cases hroot : t.root? with
  | none =>
    refine ⟨fun _ => String.singleton PathStructure.levelSeparator, funext fun validate => ?_⟩
    rw [collapseLevels_eq_collapseFrom, hroot]
    simp [collapseFrom_nil, Except.map]
  | some root =>
    refine ⟨PathStructure.serialize ((t.label? root).getD ""), funext fun validate => ?_⟩
    simp only
    cases t.collapseLevels validate <;> rfl

/-- Collapsing with validation succeeds just when, at every depth below the root, all nodes have the
same child labels in the same order, and then gives what it gives without validation, which never
fails.  Otherwise the fault names the least depth that is not so, and the path of the leftmost node
there whose child labels are not those of the leftmost node of that depth.  This holds of the lists
of tokens and of the text that is made of them. -/
theorem validation_decides (h : t.Reachable) :
    t.ValidationDecides t.collapseLevels ∧ t.ValidationDecides t.collapse := by
  have hl := h.linked
  -- the loop starts at the children of the root, which are the level of depth 1
  have hfrontier : t.levels.getD 1 [] = t.root?.toList.flatMap t.children := by
    rw [levels_eq, getD_levelsFrom, Function.iterate_one]
  have hlevels : t.ValidationDecides t.collapseLevels := by
    simp only [funext (collapseLevels_eq_collapseFrom t)]
    constructor
    · exact ⟨_, collapseFrom_false ..⟩
    · exact fun _ => hl.collapseFrom_eq_ok_iff hfrontier
    · exact fun _ => hl.collapseFrom_eq_error_iff hfrontier
  obtain ⟨f, hf⟩ := exists_collapse_eq_map t
  refine ⟨hlevels, ?_⟩
  rw [hf]
  exact hlevels.map f

/-- Three nodes with the same two children, the last of them in another order. -/
theorem validation_decides_swapped :
    let t := (ofRoot "home").afterEdits [.insert {} .literal "/home/a|b|c",
      .insert {} .literal "/home/a/x|y", .insert {} .literal "/home/b/x|y",
      .insert {} .literal "/home/c/y|x"]
    t.collapse false = .ok "/home/a|b|c/x|y" ∧ ¬ (∀ d, 1 ≤ d → t.EvenAt d) ∧
      t.IsFirstUneven 1 (.unevenLevel 1 "/home/c") := by
  intro t
  have hsize : t.size = 10 := by unfold t; cbv
  have hlabel : t.labelAt 0 = "home" := by unfold t; cbv
  have hlevels : t.levels = [[0], [1, 2, 3], [4, 5, 6, 7, 8, 9]] := by unfold t; cbv
  have htokens : [[1, 2, 3], [4, 5, 6, 7, 8, 9]].map t.levelTokens =
      [["a", "b", "c"], ["x", "y"]] := by unfold t; cbv
  have htext : t.collapse false = .ok "/home/a|b|c/x|y" := by
    rw [collapse_false_of_pos (by omega), hlevels, List.tail_cons, htokens, hlabel]
    rfl
  have hfrontier : t.root?.toList.flatMap t.children = [1, 2, 3] := by unfold t; cbv
  have hdivergent : t.divergent? [1, 2, 3] = some 3 := by unfold t; cbv
  have hlineage : (t.lineage 3).map t.labelAt = ["home", "c"] := by unfold t; cbv
  have hpath : t.path? 3 = some "/home/c" := by
    rw [path?_eq_some (by omega), hlineage]
    rfl
  have hrun : t.collapseLevels true = .error (.unevenLevel 1 "/home/c") := by
    rw [collapseLevels_eq_collapseFrom, hfrontier, collapseFrom_of_ne_nil (by decide), if_pos rfl,
      hdivergent]
    dsimp only
    rw [hpath]
    rfl
  have hdecides := (validation_decides (t := t) ⟨_, _, .ofRoot "home", rfl⟩).1
  refine ⟨htext, ?_, (hdecides.error_iff _).1 hrun⟩
  intro heven
  have hlists : t.collapseLevels false = .ok (t.levels.tail.map t.levelTokens) := rfl
  have hok := (hdecides.ok_iff _).2 ⟨heven, hlists⟩
  rw [hrun] at hok
  cases hok

end ComboTree.Tree
