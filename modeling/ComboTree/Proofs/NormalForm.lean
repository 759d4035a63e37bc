import ComboTree.Proofs.RoundTrip
import ComboTree.Proofs.Serialize

/-!
# Normal forms of path structures

An expansion looks at the root token and at which tokens each other level has, and at nothing else:
not at their order and not at repetitions.  Where no token below the root holds a dash, collapsing
writes exactly this down, each level in ascending order.  So there the text of the collapsed tree is
a normal form: two path structures have the same one just when they have the same tree, and just
when their levels have the same tokens.

## Key results

- `SameTokens`, `sameTokens_cons_iff`: which levels are not told apart
- `writes_sortedTokens`, `sameTokens_levelsOf_sortedTokens`: the text of sorted tokens, and what is
  read from it
- `Policy.expandLevels_eq_ok_iff_sorted`, `SameTokens.expandLevels`: what an expansion depends on
- `Tree.normal_of_expand`: the text of a collapsed expansion, and that it expands
- `Tree.normal_forms`: when two expansions are the same
-/

namespace ComboTree

open Combination (labelTokens)
open PathStructure (parse serialize levelsOf tokensAt Writes memberSeparator)

/-! ## The tokens of levels -/

/-- The distinct tokens of each level, in ascending order. -/
def sortedTokens (levels : List Level) : List (List String) :=
  levels.map fun level => distinctSorted level.tokens

/-- Level by level, the sorted form. -/
theorem getElem?_sortedTokens (levels : List Level) (d : Nat) :
    (sortedTokens levels)[d]? = levels[d]?.map fun level => distinctSorted level.tokens := by
  simp only [sortedTokens, List.getElem?_map]

/-- At depth zero are the tokens of the root. -/
theorem tokensAt_zero (root : Level) (below : List Level) :
    tokensAt (root :: below) 0 = root.tokens := rfl

/-- One deeper are those of the levels below it. -/
theorem tokensAt_succ (root : Level) (below : List Level) (d : Nat) :
    tokensAt (root :: below) (d + 1) = tokensAt below d := rfl

/-- The tokens of a level are those in its sorted form. -/
theorem mem_tokensAt_iff_sorted {levels : List Level} {d : Nat} {token : String} :
    token ∈ tokensAt levels d ↔ ∃ tokens, (sortedTokens levels)[d]? = some tokens ∧
      token ∈ tokens := by
  rw [tokensAt, getElem?_sortedTokens]
  cases levels[d]? <;> simp [mem_distinctSorted]

/-- The same root token, the same number of levels, and at every depth the same tokens, in whatever
order and however often. -/
structure SameTokens (levels levels' : List Level) : Prop where
  root : tokensAt levels 0 = tokensAt levels' 0
  length_eq : levels.length = levels'.length
  mem_iff : ∀ d token, token ∈ tokensAt levels d ↔ token ∈ tokensAt levels' d

/-- Levels with the same tokens have the same sorted form. -/
theorem sortedTokens_congr {levels levels' : List Level} (hlength : levels.length = levels'.length)
    (hmem : ∀ d token, token ∈ tokensAt levels d ↔ token ∈ tokensAt levels' d) :
    sortedTokens levels = sortedTokens levels' := by
  apply List.ext_getElem
  · simp only [sortedTokens, List.length_map, hlength]
  · intro d hd hd'
    simp only [sortedTokens, List.length_map] at hd hd'
    have hsame := hmem d
    simp only [tokensAt, List.getElem?_eq_getElem hd, List.getElem?_eq_getElem hd',
      Option.map_some, Option.getD_some] at hsame
    simp only [sortedTokens, List.getElem_map]
    exact distinctSorted_congr hsame

/-- The root's tokens count as they are, those of the other levels in their sorted form. -/
theorem sameTokens_cons_iff {root root' : Level} {below below' : List Level} :
    SameTokens (root :: below) (root' :: below') ↔
      root.tokens = root'.tokens ∧ sortedTokens below = sortedTokens below' := by
  constructor
  · intro h
    exact ⟨h.root, sortedTokens_congr (Nat.succ.inj h.length_eq) fun d => h.mem_iff (d + 1)⟩
  · rintro ⟨hroot, hsorted⟩
    have hlength := congrArg List.length hsorted
    simp only [sortedTokens, List.length_map] at hlength
    refine ⟨hroot, congrArg (· + 1) hlength, ?_⟩
    -- sorting forgets only what `SameTokens` does not tell apart
    intro d token
    cases d with
    | zero => rw [tokensAt_zero, tokensAt_zero, hroot]
    | succ d =>
      rw [tokensAt_succ, tokensAt_succ, mem_tokensAt_iff_sorted, mem_tokensAt_iff_sorted, hsorted]

/-! ## The text of sorted tokens -/

/-- The sorted tokens of levels that were read can be written. -/
theorem writes_sortedTokens {strict : Bool} {path label : String} {root : Level}
    {below : List Level} (hread : parse strict path = .ok (root :: below))
    (hroot : root.tokens = [label]) :
    Writes strict (serialize label (sortedTokens below)) label (sortedTokens below) := by
  -- sorting drops no token and adds none
  have htoken := PathStructure.isToken_of_parse hread
  apply PathStructure.writes_serialize
  · exact htoken root List.mem_cons_self label (by simp [hroot])
  · intro tokens htokens
    obtain ⟨level, hlevel, rfl⟩ := List.mem_map.1 htokens
    have hne := PathStructure.tokens_ne_nil_of_parse hread (List.mem_cons_of_mem root hlevel)
    obtain ⟨token, hmem⟩ := List.exists_mem_of_ne_nil _ hne
    exact List.ne_nil_of_mem (mem_distinctSorted.2 hmem)
  · intro tokens htokens token hmem
    obtain ⟨level, hlevel, rfl⟩ := List.mem_map.1 htokens
    exact htoken level (List.mem_cons_of_mem root hlevel) token (mem_distinctSorted.1 hmem)

/-- What is read from the text of sorted tokens has the same tokens. -/
theorem sameTokens_levelsOf_sortedTokens {label : String} {root : Level}
    (hroot : root.tokens = [label]) (below : List Level) :
    SameTokens (root :: below) (levelsOf ([label] :: sortedTokens below)) := by
  constructor
  case root =>
    rw [tokensAt_zero, hroot, PathStructure.tokensAt_levelsOf]
    rfl
  case length_eq => simp [levelsOf, sortedTokens]
  case mem_iff =>
    intro d token
    rw [PathStructure.tokensAt_levelsOf, List.mem_eraseDups]
    cases d with
    | zero =>
      rw [tokensAt_zero, hroot]
      rfl
    | succ d =>
      rw [tokensAt_succ, mem_tokensAt_iff_sorted, List.getD_cons_succ, List.getD_eq_getElem?_getD]
      cases (sortedTokens below)[d]? <;> simp

/-! ## What an expansion depends on -/

/-- The labels of a level are those of its distinct tokens. -/
theorem combinationLabels_distinctSorted (tokens : List String) :
    combinationLabels (distinctSorted tokens) = combinationLabels tokens := by
  rw [combinationLabels, combinationLabels, combinations_congr fun _ => mem_distinctSorted]

/-- So are those of all levels. -/
theorem map_combinationLabels_sortedTokens (levels : List Level) :
    (sortedTokens levels).map combinationLabels =
      levels.map fun level => combinationLabels level.tokens := by
  rw [sortedTokens, List.map_map]
  exact List.map_congr_left fun level _ => combinationLabels_distinctSorted level.tokens

/-- Which levels expand, and into what, is said by their sorted form. -/
theorem Policy.expandLevels_eq_ok_iff_sorted {policy : Policy} {root : Level} {below : List Level}
    {t : Tree} : policy.expandLevels (root :: below) = .ok t ↔ ∃ label, root.tokens = [label] ∧
      (∀ tokens ∈ sortedTokens below, tokens.length ≤ policy.maxAlternatives) ∧
      countNodes (((sortedTokens below).map combinationLabels).map List.length) ≤
        policy.maxNodes ∧
      Tree.product label ((sortedTokens below).map combinationLabels) = t := by
  -- both limits count distinct tokens, which is what the sorted form lists
  have hlimit : (∀ tokens ∈ sortedTokens below, tokens.length ≤ policy.maxAlternatives) ↔
      ∀ level ∈ below, level.tokens.toFinset.card ≤ policy.maxAlternatives := by
    simp only [sortedTokens, List.forall_mem_map, length_distinctSorted]
  have hwidths : ((sortedTokens below).map combinationLabels).map List.length =
      below.map fun level => (combinationLabels level.tokens).length := by
    rw [map_combinationLabels_sortedTokens, List.map_map]
    rfl
  rw [expandLevels_eq_ok_iff, hlimit, hwidths, map_combinationLabels_sortedTokens]
  constructor
  · rintro ⟨root, label, below, hcons, hroot, hrest⟩
    obtain ⟨rfl, rfl⟩ := List.cons.inj hcons
    exact ⟨label, hroot, hrest⟩
  · rintro ⟨label, hroot, hrest⟩
    exact ⟨root, label, below, rfl, hroot, hrest⟩

/-- Levels with the same tokens expand into the same tree. -/
theorem SameTokens.expandLevels {policy : Policy} {levels levels' : List Level} {t : Tree}
    (h : SameTokens levels levels') (ht : policy.expandLevels levels = .ok t) :
    policy.expandLevels levels' = .ok t := by
  obtain ⟨root, _, below, rfl, -⟩ := Policy.expandLevels_eq_ok_iff.1 ht
  -- as many levels as the others, so there is a root here as well
  obtain ⟨root', below', rfl⟩ :=
    List.exists_cons_of_length_eq_add_one (h.length_eq.symm.trans List.length_cons)
  obtain ⟨hroot, hsorted⟩ := sameTokens_cons_iff.1 h
  rw [Policy.expandLevels_eq_ok_iff_sorted, hroot, hsorted] at ht
  exact Policy.expandLevels_eq_ok_iff_sorted.2 ht

/-! ## Collapsed expansions -/

/-- No token below the root holds the character that joins the members of a label. -/
def Undashed (levels : List Level) : Prop :=
  ∀ level ∈ levels.tail, ∀ token ∈ level.tokens, memberSeparator ∉ token.toList

instance (levels : List Level) : Decidable (Undashed levels) :=
  inferInstanceAs (Decidable (∀ level ∈ levels.tail, ∀ token ∈ level.tokens, _))

namespace Tree

/-- Without dashes a product of sorted tokens collapses into the text of these. -/
theorem collapse_product_sortedTokens (label : String) {below : List Level}
    (hne : ∀ level ∈ below, level.tokens ≠ [])
    (hdash : ∀ level ∈ below, ∀ token ∈ level.tokens, memberSeparator ∉ token.toList)
    (validate : Bool) :
    (product label ((sortedTokens below).map combinationLabels)).collapse validate =
      .ok (serialize label (sortedTokens below)) := by
  -- without dashes the pieces of a level's labels are its tokens
  have hlevels : ∀ level ∈ below,
      "/" ++ "|".intercalate ((combinationLabels level.tokens).flatMap labelTokens).eraseDups =
        "/" ++ "|".intercalate (distinctSorted level.tokens) := by
    intro level hlevel
    rw [eraseDups_labelTokens_combinationLabels,
      eraseDups_labelTokens_distinctSorted (hdash level hlevel)]
  rw [map_combinationLabels_sortedTokens,
    collapse_product label (forall_combinationLabels_ne_nil hne), serialize_eq, sortedTokens,
    List.map_map, List.map_map]
  exact congrArg (fun segs => Except.ok ("/" ++ label ++ String.join segs))
    (List.map_congr_left hlevels)

/-- What a text reads as, without dashes, is written by collapsing its expansion, sorted and each
token once; and what is written expands into the same tree again. -/
theorem normal_of_expand {policy : Policy} {path : String} {levels : List Level} {t : Tree}
    (h : policy.expand path = .ok t) (hread : parse policy.strict path = .ok levels)
    (hdash : Undashed levels) : ∃ root below label, levels = root :: below ∧
      root.tokens = [label] ∧ t = product label ((sortedTokens below).map combinationLabels) ∧
      (∀ validate, t.collapse validate = .ok (serialize label (sortedTokens below))) ∧
      Writes policy.strict (serialize label (sortedTokens below)) label (sortedTokens below) ∧
      policy.expand (serialize label (sortedTokens below)) = .ok t := by
  obtain ⟨levels', hread', ht⟩ := Policy.expand_eq_ok_iff.1 h
  obtain rfl := Except.ok.inj (hread.symm.trans hread')
  obtain ⟨root, _, below, rfl, -⟩ := Policy.expandLevels_eq_ok_iff.1 ht
  obtain ⟨label, hroot, -, -, rfl⟩ := Policy.expandLevels_eq_ok_iff_sorted.1 ht
  have hne : ∀ level ∈ below, level.tokens ≠ [] := fun level hlevel =>
    PathStructure.tokens_ne_nil_of_parse hread (List.mem_cons_of_mem root hlevel)
  have hwrites := writes_sortedTokens hread hroot
  -- the text is read as the sorted levels, which expand like the levels themselves
  have hagain := PathStructure.parse_eq_ok_iff_writes.2 ⟨label, _, hwrites, rfl⟩
  have hsame := sameTokens_levelsOf_sortedTokens hroot below
  exact ⟨root, below, label, rfl, hroot, rfl, collapse_product_sortedTokens label hne hdash,
    hwrites, Policy.expand_eq_ok_iff.2 ⟨_, hagain, hsame.expandLevels ht⟩⟩

/-- Where no token below the root holds a dash, three things are the same for two path structures
that expand: that their levels have the same tokens, that they expand into the same tree, node for
node, and that their trees collapse into the same text, with validation or without.  This text is a
normal form: it expands into the tree that was collapsed, and so collapses into itself. -/
theorem normal_forms {policy : Policy} {path path' : String} {levels levels' : List Level}
    {t t' : Tree} (h : policy.expand path = .ok t) (h' : policy.expand path' = .ok t')
    (hread : parse policy.strict path = .ok levels)
    (hread' : parse policy.strict path' = .ok levels') (hdash : Undashed levels)
    (hdash' : Undashed levels') :
    ∃ normal normal', (∀ validate, t.collapse validate = .ok normal) ∧
      (∀ validate, t'.collapse validate = .ok normal') ∧
      [SameTokens levels levels', t = t', normal = normal'].TFAE ∧
      policy.expand normal = .ok t ∧
      ∀ validate, (policy.expand normal >>= fun t => t.collapse validate) = .ok normal := by
  obtain ⟨root, below, label, rfl, hroot, htree, hcollapse, hwrites, hagain⟩ :=
    normal_of_expand h hread hdash
  obtain ⟨root', below', label', rfl, hroot', htree', hcollapse', hwrites', -⟩ :=
    normal_of_expand h' hread' hdash'
  refine ⟨_, _, hcollapse, hcollapse', ?_, hagain, ?_⟩
  · -- the tree depends on the sorted form alone, and the text on the tree alone
    tfae_have 1 → 2 := by
      intro hsame
      obtain ⟨hlabel, hsorted⟩ := sameTokens_cons_iff.1 hsame
      rw [hroot, hroot', List.singleton_inj] at hlabel
      rw [htree, htree', hlabel, hsorted]
    tfae_have 2 → 3 := by
      rintro rfl
      exact Except.ok.inj ((hcollapse true).symm.trans (hcollapse' true))
    tfae_have 3 → 1 := by
      intro htext
      -- a text is written in one way only
      rw [htext] at hwrites
      obtain ⟨hlabel, hsorted⟩ := hwrites.unique hwrites'
      exact sameTokens_cons_iff.2 ⟨by rw [hroot, hroot', hlabel], hsorted⟩
    tfae_finish
  · intro validate
    exact Except.bind_eq_ok_iff.2 ⟨t, hagain, hcollapse validate⟩

/-- Two texts of one tree, which differ in order and repetition, and a text of another tree. -/
theorem normal_forms_home :
    SameTokens [⟨0, ["home"]⟩, ⟨1, ["b", "a"]⟩] [⟨0, ["home"]⟩, ⟨1, ["a", "b"]⟩] ∧
    ¬ SameTokens [⟨0, ["home"]⟩, ⟨1, ["b", "a"]⟩] [⟨0, ["home"]⟩, ⟨1, ["a"]⟩] ∧
    (Policy.expand {} "/home/b|a|b" >>= fun t => t.collapse true) = .ok "/home/a|b" ∧
    Policy.expand {} "/home/a|b" = .ok (product "home" [["a", "b", "a-b"]]) := by
  have hread : parse false "/home/b|a|b" = .ok [⟨0, ["home"]⟩, ⟨1, ["b", "a"]⟩] := by cbv
  have hsame : parse false "/home/a|b" = .ok [⟨0, ["home"]⟩, ⟨1, ["a", "b"]⟩] := by cbv
  have hother : parse false "/home/a" = .ok [⟨0, ["home"]⟩, ⟨1, ["a"]⟩] := by cbv
  have h : Policy.expand {} "/home/b|a|b" = .ok (product "home" [["a", "b", "a-b"]]) := by cbv
  have h₁ : Policy.expand {} "/home/a|b" = .ok (product "home" [["a", "b", "a-b"]]) := by cbv
  have h₂ : Policy.expand {} "/home/a" = .ok (product "home" [["a"]]) := by cbv
  have hwritten : (product "home" [["a", "b", "a-b"]]).collapse true = .ok "/home/a|b" :=
    collapse_product "home" (by decide) true
  obtain ⟨normal, _, hnormal, _, htfae, hagain, -⟩ :=
    normal_forms h h₁ hread hsame (by decide) (by decide)
  obtain ⟨_, _, _, _, hdiffer, -⟩ := normal_forms h h₂ hread hother (by decide) (by decide)
  obtain rfl := Except.ok.inj ((hnormal true).symm.trans hwritten)
  refine ⟨(htfae.out 0 1).2 rfl, fun hsame => ?_, ?_, hagain⟩
  · have hsize := congrArg size ((hdiffer.out 0 1).1 hsame)
    revert hsize
    decide
  · exact Except.bind_eq_ok_iff.2 ⟨_, h, hwritten⟩

end Tree

end ComboTree
