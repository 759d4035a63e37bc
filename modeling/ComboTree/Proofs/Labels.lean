import ComboTree.Proofs.Pieces
import ComboTree.Proofs.PowerSet

/-!
# Labels and the tokens in them

A label joins the members of a combination, and `labelTokens` cuts it at the same character.  A
member that holds the character itself is cut too, so what comes back are the pieces of the members.

## Key results

- `labelTokens_eq_singleton`: a token without the member separator is one piece
- `distinctSorted_prefix_combinationLabels`, `combinationLabels_start`: which labels of a level come
  first
- `eraseDups_labelTokens_combinationLabels`: all labels of a level together hold the pieces of its
  distinct tokens, and show them in that order
- `nodup_combinationLabels`: tokens without the member separator have no two labels alike
-/

namespace ComboTree

open PathStructure (memberSeparator)

namespace Combination

/-- A token without the member separator is its own only piece. -/
theorem labelTokens_eq_singleton {token : String} (h : memberSeparator ∉ token.toList) :
    labelTokens token = [token] :=
  Text.pieces_eq_singleton h

/-- The tokens of a label are the pieces of the members. -/
theorem labelTokens_label {c : Combination} (h : c.members ≠ []) :
    labelTokens c.label = c.members.flatMap labelTokens :=
  Text.pieces_joined_flatMap memberSeparator h

/-- Where no member holds the member separator, the tokens of a label are the members. -/
theorem labelTokens_label_of_no_dash {c : Combination} (h : c.members ≠ [])
    (hdash : ∀ m ∈ c.members, memberSeparator ∉ m.toList) : labelTokens c.label = c.members := by
  rw [labelTokens_label h, List.flatMap_congr fun m hm => labelTokens_eq_singleton (hdash m hm),
    List.flatMap_singleton']

end Combination

open Combination (labelTokens)

/-! ## All labels of a level -/

/-- The single tokens come first among the labels of a level. -/
theorem distinctSorted_prefix_combinationLabels (tokens : List String) :
    distinctSorted tokens <+: combinationLabels tokens := by
  have hlabels : combinationLabels tokens =
      ((combinations tokens).map Combination.members).map (Text.joined memberSeparator) := by
    rw [combinationLabels, List.map_map]
    rfl
  rw [hlabels, map_members_combinations, setsUpTo]
  generalize distinctSorted tokens = xs
  cases hn : xs.length with
  | zero =>
    rw [List.length_eq_zero_iff] at hn
    subst hn
    exact List.nil_prefix
  | succ n =>
    -- the sets of size one come before those of other sizes
    have hsingle : (sublistsOfLength 1 xs).map (Text.joined memberSeparator) = xs := by
      rw [sublistsOfLength_one, List.map_map]
      exact List.map_id xs
    rw [List.range'_succ, List.flatMap_cons, List.map_append, hsingle]
    exact List.prefix_append xs _

/-- If there are two labels, the first two are the two least tokens. -/
theorem combinationLabels_start {tokens rest : List String} {a b : String}
    (h : combinationLabels tokens = a :: b :: rest) : a < b := by
  obtain ⟨larger, hlarger⟩ := distinctSorted_prefix_combinationLabels tokens
  have hsorted := pairwise_distinctSorted tokens
  have hlength : (combinationLabels tokens).length = 2 ^ (distinctSorted tokens).length - 1 := by
    rw [combinationLabels, List.length_map, length_combinations, length_distinctSorted]
  rw [h] at hlarger hlength
  -- with no token or one there are no two labels
  match hxs : distinctSorted tokens with
  | [] => simp [hxs] at hlength
  | [x] => simp [hxs] at hlength
  | x :: y :: zs =>
    rw [hxs] at hlarger hsorted
    simp only [List.cons_append, List.cons.injEq] at hlarger
    obtain ⟨rfl, rfl, -⟩ := hlarger
    exact (List.pairwise_cons.1 hsorted).1 y List.mem_cons_self

/-- The single tokens come first among the labels, so they show every piece of the level, and the
larger sets repeat them. -/
theorem eraseDups_labelTokens_combinationLabels (tokens : List String) :
    ((combinationLabels tokens).flatMap labelTokens).eraseDups =
      ((distinctSorted tokens).flatMap labelTokens).eraseDups := by
  obtain ⟨larger, hlarger⟩ := distinctSorted_prefix_combinationLabels tokens
  rw [← hlarger, List.flatMap_append]
  -- a piece of a larger set is a piece of one of its members
  apply List.eraseDups_append_of_subset
  intro piece hpiece
  obtain ⟨label, hlabel, hpiece⟩ := List.mem_flatMap.1 hpiece
  have hmem : label ∈ combinationLabels tokens := hlarger ▸ List.mem_append_right _ hlabel
  obtain ⟨c, hc, rfl⟩ := List.mem_map.1 hmem
  obtain ⟨hne, -, hsub⟩ := mem_combinations_iff.1 ⟨c, hc, rfl⟩
  rw [Combination.labelTokens_label hne] at hpiece
  obtain ⟨m, hm, hpiece⟩ := List.mem_flatMap.1 hpiece
  exact List.mem_flatMap.2 ⟨m, mem_distinctSorted.2 (hsub hm), hpiece⟩

/-- Where no token holds the member separator, the labels show the distinct tokens themselves. -/
theorem eraseDups_labelTokens_distinctSorted {tokens : List String}
    (h : ∀ token ∈ tokens, memberSeparator ∉ token.toList) :
    ((distinctSorted tokens).flatMap labelTokens).eraseDups = distinctSorted tokens := by
  have hself : (distinctSorted tokens).flatMap labelTokens = distinctSorted tokens := by
    have hone : ∀ token ∈ distinctSorted tokens, labelTokens token = [token] :=
      fun token ht => Combination.labelTokens_eq_singleton (h token (mem_distinctSorted.1 ht))
    rw [List.flatMap_congr hone, List.flatMap_singleton']
  rw [hself, List.eraseDups_eq_self (pairwise_distinctSorted tokens).nodup]

/-- Where no token holds the member separator, no two combinations have the same label. -/
theorem nodup_combinationLabels {tokens : List String}
    (h : ∀ token ∈ tokens, memberSeparator ∉ token.toList) : (combinationLabels tokens).Nodup := by
  have hread : ∀ c ∈ combinations tokens, labelTokens c.label = c.members := by
    intro c hc
    obtain ⟨hne, -, hsub⟩ := mem_combinations_iff.1 ⟨c, hc, rfl⟩
    exact Combination.labelTokens_label_of_no_dash hne fun m hm => h m (hsub hm)
  have hnodup : (combinations tokens).Nodup := by
    refine (pairwise_combinations tokens).imp ?_
    rintro c _ (hlt | ⟨-, hlt⟩) rfl
    · exact Nat.lt_irrefl _ hlt
    · exact List.lt_irrefl _ hlt
  refine hnodup.map_on fun c hc d hd hlabel => ?_
  -- equal labels are read as the same members
  exact Combination.ext (by rw [← hread c hc, ← hread d hd, hlabel])

end ComboTree
