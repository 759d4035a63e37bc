import ComboTree.Proofs.Labels
import ComboTree.Proofs.Product

/-!
# Collapsing what was expanded

In a product every level repeats one list of labels, so no depth is uneven and the tokens of a depth
are those of that list.  The labels of a level show the pieces of its distinct tokens, single tokens
first, and this is what collapsing an expansion writes.

## Key results

- `firstUneven?_product`: no depth of a product is uneven
- `map_levelTokens_product`: the tokens of each depth are those of its choices
- `collapse_expand`: collapsing an expansion gives its levels back, sorted and cut at `-`
-/

namespace ComboTree.Tree

open Combination (labelTokens)
open PathStructure (memberSeparator)

variable {t : Tree}

/-- A level is even when all of its nodes have the same child labels. -/
theorem divergent?_eq_none {level : List Nat} {labels : List String}
    (h : ∀ n ∈ level, t.childLabels n = labels) : t.divergent? level = none := by
  -- each node is compared with the first one of the level
  cases level with
  | nil => rfl
  | cons first rest =>
    simp only [divergent?, List.find?_eq_none]
    intro n hn
    rw [h n (List.mem_cons_of_mem first hn), h first List.mem_cons_self]
    simp

/-- Where the same product stands at every node of a frontier, no level from it on is uneven. -/
theorem divergent?_levelsFrom {choices : List (List String)} {frontier : List Nat}
    (h : ∀ n ∈ frontier, ∃ a, t.labelled n = Rose.product a choices) :
    ∀ level ∈ t.levelsFrom frontier, t.divergent? level = none := by
  -- along the choices: below a frontier of equal products stands a frontier of equal products
  induction choices generalizing frontier with
  | nil =>
    intro level hlevel
    by_cases hne : frontier = []
    · subst hne
      exact absurd hlevel List.not_mem_nil
    · -- no choices are left, so the frontier is the last level and has no children
      have hbelow : frontier.flatMap t.children = [] := by
        rw [List.flatMap_eq_nil_iff]
        intro n hn
        obtain ⟨a, ha⟩ := h n hn
        exact children_of_labelled_nil ha
      have hsame : ∀ n ∈ frontier, t.childLabels n = [] := by
        intro n hn
        obtain ⟨a, ha⟩ := h n hn
        exact childLabels_of_labelled ha
      rw [levelsFrom_eq_cons hne, hbelow, levelsFrom_nil, List.mem_singleton] at hlevel
      rw [hlevel, divergent?_eq_none hsame]
  | cons choice rest ih =>
    intro level hlevel
    by_cases hne : frontier = []
    · subst hne
      exact absurd hlevel List.not_mem_nil
    · rw [levelsFrom_eq_cons hne] at hlevel
      rcases List.mem_cons.1 hlevel with rfl | hlevel
      · -- every node of the frontier has the next choice as its child labels
        have hsame : ∀ n ∈ level, t.childLabels n = choice := by
          intro n hn
          obtain ⟨a, ha⟩ := h n hn
          exact childLabels_of_labelled ha
        exact divergent?_eq_none hsame
      · refine ih (fun c hc => ?_) level hlevel
        obtain ⟨n, hn, hc⟩ := List.mem_flatMap.1 hc
        obtain ⟨a, ha⟩ := h n hn
        exact exists_labelled_child ha hc

/-- No depth of a product is uneven. -/
theorem firstUneven?_product (root : String) (choices : List (List String)) :
    (product root choices).firstUneven? = none := by
  -- the whole product stands at the root, which is the first frontier
  have hroot : ∀ n ∈ [0], ∃ a, (product root choices).labelled n = Rose.product a choices := by
    intro n hn
    rw [List.mem_singleton.1 hn]
    exact ⟨root, labelled_product root choices⟩
  rw [firstUneven?, List.findSome?_eq_none_iff]
  rintro ⟨level, depth⟩ hmem
  have hlevel := List.mem_of_mem_tail (List.fst_mem_of_mem_zipIdx hmem)
  rw [levels_eq, root?_product] at hlevel
  dsimp only
  rw [divergent?_levelsFrom hroot level hlevel, Option.map_none]

/-- The tokens of each depth of a product are those of the choices at that depth. -/
theorem map_levelTokens_product (root : String) {choices : List (List String)}
    (h : ∀ choice ∈ choices, choice ≠ []) :
    (product root choices).levels.tail.map (product root choices).levelTokens =
      choices.map fun choice => (choice.flatMap labelTokens).eraseDups := by
  -- a level repeats its labels once for each node above it, which adds no first occurrence
  have hrepeat : ∀ as labels : List String, as ≠ [] →
      ((as.flatMap fun _ => labels).flatMap labelTokens).eraseDups =
        (labels.flatMap labelTokens).eraseDups := by
    intro as labels has
    rw [List.flatMap_assoc]
    exact List.eraseDups_flatMap_const has _
  have hlevels := map_label?_levels (size_product_pos root choices)
  rw [labelled_product] at hlevels
  have hproduct := Rose.map_tail_levels_product
    (f := fun labels => (labels.flatMap labelTokens).eraseDups) hrepeat h root
  rw [← hlevels, ← List.map_tail, List.map_map] at hproduct
  rw [levels, skeleton?, root?_product]
  exact hproduct

/-! ## The text -/

/-- A path structure is its root and its levels, each after a slash. -/
theorem serialize_eq (root : String) (levels : List (List String)) :
    PathStructure.serialize root levels =
      "/" ++ root ++ String.join (levels.map fun level => "/" ++ "|".intercalate level) := by
  rw [PathStructure.serialize, ofSegments_eq, List.map_cons, String.join_cons, List.map_map]
  rfl

/-- The root of a product keeps its label. -/
theorem label?_product_zero (root : String) (choices : List (List String)) :
    (product root choices).label? 0 = some root := by
  have hvalue := value_labelled (product root choices) 0
  rw [labelled_product, Rose.value_product] at hvalue
  rw [label?_eq_some (size_product_pos root choices), ← hvalue]

/-- Every product collapses, with validation or without. -/
theorem collapse_product (root : String) {choices : List (List String)}
    (h : ∀ choice ∈ choices, choice ≠ []) (validate : Bool) :
    (product root choices).collapse validate = .ok ("/" ++ root ++
      String.join (choices.map fun choice =>
        "/" ++ "|".intercalate (choice.flatMap labelTokens).eraseDups)) := by
  have hlevels : (product root choices).collapseLevels validate =
      .ok (choices.map fun choice => (choice.flatMap labelTokens).eraseDups) := by
    -- validation finds nothing, and without it nothing is looked for
    cases validate <;>
      simp only [collapseLevels, firstUneven?_product, map_levelTokens_product root h, if_true,
        Bool.false_eq_true, if_false]
  have hserialize := serialize_eq root
    (choices.map fun choice => (choice.flatMap labelTokens).eraseDups)
  rw [List.map_map] at hserialize
  simp only [collapse, root?_product, hlevels, label?_product_zero, Option.getD_some]
  exact congrArg Except.ok hserialize

/-- Collapsing an expansion, with validation or without, gives the root token and, for each level,
the pieces of its distinct tokens in ascending order, each where it occurs first.  Where no token
holds the member separator, and so always in the strict form of the notation, these are the distinct
tokens themselves. -/
theorem collapse_expand {policy : Policy} {path : String} (h : policy.expand path = .ok t)
    (validate : Bool) :
    ∃ root label below,
      PathStructure.parse policy.strict path = .ok (root :: below) ∧ root.tokens = [label] ∧
      t.collapse validate = .ok ("/" ++ label ++ String.join (below.map fun level =>
        "/" ++ "|".intercalate ((distinctSorted level.tokens).flatMap labelTokens).eraseDups)) ∧
      ((∀ level ∈ below, ∀ token ∈ level.tokens, memberSeparator ∉ token.toList) →
        t.collapse validate = .ok ("/" ++ label ++ String.join (below.map fun level =>
          "/" ++ "|".intercalate (distinctSorted level.tokens)))) ∧
      (policy.strict = true →
        ∀ level ∈ below, ∀ token ∈ level.tokens, memberSeparator ∉ token.toList) := by
  obtain ⟨root, label, below, hparse, hroot, rfl, hne⟩ := exists_product_of_expand h
  have hcollapse := collapse_product label hne validate
  rw [List.map_map] at hcollapse
  simp only [Function.comp_def, eraseDups_labelTokens_combinationLabels] at hcollapse
  -- the text is that of the pieces; what is left is when these are the tokens themselves
  refine ⟨root, label, below, hparse, hroot, hcollapse, fun hdash => ?_, fun hstrict => ?_⟩
  · rw [hcollapse]
    congr 3
    apply List.map_congr_left
    intro level hlevel
    rw [eraseDups_labelTokens_distinctSorted (hdash level hlevel)]
  · intro level hlevel token htoken
    rw [hstrict] at hparse
    exact PathStructure.not_mem_of_parse_strict hparse (List.mem_cons_of_mem root hlevel) htoken

/-- A token that holds the member separator is cut, and its pieces join the others of its level. -/
theorem collapse_expand_home :
    Policy.expand {} "/home/b|a|a-c/a" =
      .ok (product "home" [combinationLabels ["b", "a", "a-c"], ["a"]]) ∧
    (product "home" [combinationLabels ["b", "a", "a-c"], ["a"]]).collapse true =
      .ok "/home/a|c|b/a" := by
  have h : Policy.expand {} "/home/b|a|a-c/a" =
      .ok (product "home" [combinationLabels ["b", "a", "a-c"], ["a"]]) := by
    cbv
  have hread : PathStructure.parse false "/home/b|a|a-c/a" =
      .ok [⟨0, ["home"]⟩, ⟨1, ["b", "a", "a-c"]⟩, ⟨2, ["a"]⟩] := by cbv
  obtain ⟨root, label, below, hparse, hroot, hcollapse, -, -⟩ := collapse_expand h true
  obtain ⟨rfl, rfl⟩ := List.cons.inj (Except.ok.inj (hread.symm.trans hparse))
  obtain ⟨rfl, -⟩ := List.cons.inj hroot
  have hfirst : ((distinctSorted ["b", "a", "a-c"]).flatMap labelTokens).eraseDups =
      ["a", "c", "b"] := by cbv
  have hsecond : ((distinctSorted ["a"]).flatMap labelTokens).eraseDups = ["a"] := by cbv
  rw [List.map_cons, List.map_singleton, hfirst, hsecond] at hcollapse
  exact ⟨h, hcollapse⟩

end ComboTree.Tree
