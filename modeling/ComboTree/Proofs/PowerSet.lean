import ComboTree.Proofs.Discovery
import Mathlib.Data.Nat.Choose.Sum

/-!
# The combinations of a token list are its non-empty sets

The rounds of the search list the sets of each size, size after size, so what is known of the sets
of one size is known of all combinations: which they are, how many, and in which order they come.

## Key results

- `mem_combinations_iff`, `length_combinations`, `pairwise_combinations`, `combinations_congr`
- `combinationsWithin_eq`: the limit on distinct tokens
- `combinations_enumerate`: all of these together
-/

namespace ComboTree

/-! ## All sizes -/

/-- A list is the member list of a combination when it is a non-empty set of the tokens. -/
theorem mem_combinations_iff {tokens ms : List String} :
    (∃ c ∈ combinations tokens, c.members = ms) ↔
      ms ≠ [] ∧ ms.Pairwise (· < ·) ∧ ms ⊆ tokens := by
  have hmem : (∃ c ∈ combinations tokens, c.members = ms) ↔
      ms ∈ (combinations tokens).map Combination.members := List.mem_map.symm
  rw [hmem, map_members_combinations, setsUpTo]
  simp only [List.mem_flatMap, List.mem_range'_1, mem_sublistsOfLength]
  constructor
  · rintro ⟨k, ⟨hk, -⟩, hsub, hlen⟩
    refine ⟨?_, (pairwise_distinctSorted tokens).sublist hsub, fun m hm => ?_⟩
    · rintro rfl
      simp only [List.length_nil] at hlen
      omega
    · exact mem_distinctSorted.1 (hsub.subset hm)
  · rintro ⟨hne, hsorted, hsub⟩
    -- an ascending list whose entries are in another ascending list is a sublist of it
    have hsublist : ms.Sublist (distinctSorted tokens) :=
      sublist_of_subset hsorted (pairwise_distinctSorted tokens) fun m hm =>
        mem_distinctSorted.2 (hsub hm)
    have hpos := List.length_pos_of_ne_nil hne
    have hle := hsublist.length_le
    exact ⟨ms.length, ⟨by omega, by omega⟩, hsublist, rfl⟩

/-- `n` distinct tokens have `2 ^ n - 1` non-empty sets. -/
theorem length_combinations (tokens : List String) :
    (combinations tokens).length = 2 ^ tokens.toFinset.card - 1 := by
  rw [← List.length_map (f := Combination.members), map_members_combinations,
    setsUpTo, List.length_flatMap, ← length_distinctSorted]
  generalize distinctSorted tokens = xs
  have hchoose : (List.range' 1 xs.length).map (fun k => (sublistsOfLength k xs).length) =
      (List.range xs.length).map fun k => xs.length.choose (k + 1) := by
    rw [List.range'_eq_map_range, List.map_map]
    apply List.map_congr_left
    intro k _
    rw [Function.comp_apply, length_sublistsOfLength, Nat.add_comm]
  -- the row of binomial coefficients without its first, which counts the empty set
  have hrow : ((List.range xs.length).map fun k => xs.length.choose (k + 1)).sum =
      ∑ k ∈ Finset.range xs.length, xs.length.choose (k + 1) := rfl
  have hsum := Nat.sum_range_choose xs.length
  rw [Finset.sum_range_succ', Nat.choose_zero_right] at hsum
  rw [hchoose, hrow]
  omega

/-- Smaller sets first, and sets of one size in lexicographic order. -/
theorem pairwise_combinations (tokens : List String) :
    (combinations tokens).Pairwise fun c d =>
      c.size < d.size ∨ c.size = d.size ∧ c.members < d.members := by
  have hmembers : ((combinations tokens).map Combination.members).Pairwise fun l r =>
      l.length < r.length ∨ l.length = r.length ∧ l < r := by
    rw [map_members_combinations, setsUpTo, List.pairwise_flatMap]
    -- within a size the order is lexicographic, and across sizes the sizes decide
    constructor
    · intro k _
      have hlex := pairwise_sublistsOfLength (pairwise_distinctSorted tokens) k
      refine hlex.imp_of_mem fun hl hr hlt => .inr ⟨?_, hlt⟩
      rw [(mem_sublistsOfLength.1 hl).2, (mem_sublistsOfLength.1 hr).2]
    · have hsizes : (List.range' 1 (distinctSorted tokens).length).Pairwise (· < ·) :=
        List.pairwise_lt_range' ..
      refine hsizes.imp fun hlt l hl r hr => .inl ?_
      rw [(mem_sublistsOfLength.1 hl).2, (mem_sublistsOfLength.1 hr).2]
      exact hlt
  exact List.pairwise_map.1 hmembers

/-- The combinations depend only on which tokens there are. -/
theorem combinations_congr {xs ys : List String} (h : ∀ token, token ∈ xs ↔ token ∈ ys) :
    combinations xs = combinations ys := by
  simp only [combinations, distinctSorted_congr h]

/-- The limit counts distinct tokens, and a level within it has all of its combinations. -/
theorem combinationsWithin_eq (limit : Nat) (tokens : List String) :
    combinationsWithin limit tokens =
      if limit < tokens.toFinset.card then
        .error (.tooManyAlternatives tokens.toFinset.card limit)
      else
        .ok (combinations tokens) := by
  simp only [combinationsWithin, List.length_eraseDups]

/-- `combinations` lists exactly the non-empty sets of the given tokens, each once and in strictly
ascending order, whatever the order and the repetitions of the tokens; with a limit it does so for
no more distinct tokens than the limit, and otherwise names their number. -/
theorem combinations_enumerate (tokens : List String) :
    (∀ ms : List String, (∃ c ∈ combinations tokens, c.members = ms) ↔
      ms ≠ [] ∧ ms.Pairwise (· < ·) ∧ ms ⊆ tokens) ∧
    (combinations tokens).length = 2 ^ tokens.toFinset.card - 1 ∧
    ((combinations tokens).Pairwise fun c d =>
      c.size < d.size ∨ c.size = d.size ∧ c.members < d.members) ∧
    (∀ others : List String, (∀ token, token ∈ others ↔ token ∈ tokens) →
      combinations others = combinations tokens) ∧
    ∀ limit, combinationsWithin limit tokens =
      if limit < tokens.toFinset.card then
        .error (.tooManyAlternatives tokens.toFinset.card limit)
      else
        .ok (combinations tokens) :=
  ⟨fun _ => mem_combinations_iff, length_combinations tokens, pairwise_combinations tokens,
    fun _ h => combinations_congr h, fun limit => combinationsWithin_eq limit tokens⟩

end ComboTree
