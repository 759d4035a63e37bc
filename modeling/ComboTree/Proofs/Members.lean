import ComboTree.Proofs.Labels
import ComboTree.Synonym

/-!
# Which tokens, and how often

A combination keeps its tokens in ascending order, so it shows which tokens were given and how
often, but not in which order.  Whichever way a list is sorted, the result is the same, and equal
results come from lists that are equal up to order.

A label shows the members as well, as long as none of them holds the character that joins them.
What a label is cut into never holds it, so cutting a label and joining what was sorted is done once
and for all: done again it changes nothing.

## Key results

- `Combination.members_ofMembers_eq_iff_perm`, `sameContent_iff_perm`: equal up to order
- `sameContent_iff_sameMembers`: the two comparisons of contents are one relation
- `Combination.ofLabel_label`: from a combination to its label and back
- `Combination.label_decodes`: labels, tokens and combinations
-/

namespace ComboTree

open PathStructure (memberSeparator)

namespace Combination

/-! ## Members up to order -/

/-- Lists have the same members just when they are the same up to order. -/
theorem members_ofMembers_eq_iff_perm {left right : List String} :
    (ofMembers left).members = (ofMembers right).members ↔ left.Perm right := by
  constructor
  · intro h
    -- each list is up to order what it is sorted into, and that is one list for both
    have hleft := members_ofMembers_perm left
    rw [h] at hleft
    exact hleft.symm.trans (members_ofMembers_perm right)
  · intro h
    exact members_eq_of_perm_of_sorted ((members_ofMembers_perm right).trans h.symm)
      (ofMembers right).sorted

end Combination

open Combination (ofMembers)

/-- Lists of equal length are the same when sorted just when they are the same up to order. -/
theorem sameContent_iff_perm {left right : List String} :
    sameContent left right = true ↔ left.Perm right := by
  unfold sameContent
  rw [Bool.and_eq_true, decide_eq_true_iff, decide_eq_true_iff,
    ← Combination.members_ofMembers_eq_iff_perm]
  -- the lengths are those of the sorted lists
  refine and_iff_right_of_imp fun h => ?_
  exact (Combination.members_ofMembers_eq_iff_perm.1 h).length_eq

/-- The contents of two lists are the same, compared as lists or as combinations, just when one is
the other in another order, with every token as often. -/
theorem sameContent_iff_sameMembers (left right : List String) :
    (sameContent left right = true ↔ right.Perm left) ∧
    (sameContent left right = true ↔ (ofMembers left).sameMembers (ofMembers right) = true) := by
  have hmembers : (ofMembers left).sameMembers (ofMembers right) = true ↔ left.Perm right := by
    rw [Combination.sameMembers, decide_eq_true_iff, Combination.members_ofMembers_eq_iff_perm]
  rw [hmembers, sameContent_iff_perm]
  exact ⟨List.perm_comm, Iff.rfl⟩

namespace Combination

/-! ## Members from a label -/

/-- Sorting what is in order changes nothing. -/
theorem ofMembers_members (c : Combination) : ofMembers c.members = c :=
  ext (members_ofMembers_of_sorted c.sorted)

/-- A label gives the combination back, if no member holds the member separator. -/
theorem ofLabel_label {c : Combination} (h : c.members ≠ [])
    (hdash : ∀ m ∈ c.members, memberSeparator ∉ m.toList) : ofLabel c.label = c := by
  rw [ofLabel, labelTokens_label_of_no_dash h hdash, ofMembers_members]

/-- The same for given tokens, which the members are up to order. -/
theorem ofLabel_label_ofMembers {tokens : List String} (h : tokens ≠ [])
    (hdash : ∀ token ∈ tokens, memberSeparator ∉ token.toList) :
    ofLabel (ofMembers tokens).label = ofMembers tokens := by
  have hperm := members_ofMembers_perm tokens
  refine ofLabel_label (fun hnil => h ?_) fun m hm => hdash m (hperm.subset hm)
  rw [hnil] at hperm
  exact hperm.symm.eq_nil

/-- Joining the tokens of a label gives the label.  From the label of tokens without a dash, empty
ones and repeated ones among them, come the members that these tokens have, so two labels are the
same just when the tokens are, each as often.  Any label has a canonical form, that of its
combination, which stands for the same combination. -/
theorem label_decodes :
    (∀ label, Text.joined '-' (labelTokens label) = label) ∧
    (∀ tokens : List String, tokens ≠ [] → (∀ token ∈ tokens, '-' ∉ token.toList) →
      (ofLabel (ofMembers tokens).label).members = (ofMembers tokens).members ∧
      ∀ others : List String, others ≠ [] → (∀ token ∈ others, '-' ∉ token.toList) →
        ((ofMembers tokens).label = (ofMembers others).label ↔ tokens.Perm others)) ∧
    ∀ label, ofLabel (ofLabel label).label = ofLabel label := by
  refine ⟨Text.joined_pieces memberSeparator, ?_, ?_⟩
  · intro tokens hne hdash
    have hback := ofLabel_label_ofMembers hne hdash
    refine ⟨congrArg members hback, ?_⟩
    intro others hne' hdash'
    have hback' := ofLabel_label_ofMembers hne' hdash'
    rw [← members_ofMembers_eq_iff_perm]
    constructor
    · -- equal labels are read as the same combination
      intro h
      rw [← hback, ← hback', h]
    · intro h
      rw [ext h]
  · intro label
    exact ofLabel_label_ofMembers (Text.pieces_ne_nil memberSeparator label)
      fun _ htoken => Text.not_mem_of_mem_pieces htoken

/-- An empty token and a repeated one: the label starts with a dash, and it is that of the same
tokens in another order, but not of fewer. -/
theorem label_decodes_repeated :
    (ofMembers ["b", "", "a", "b"]).label = "-a-b-b" ∧
    (ofLabel "-a-b-b").members = ["", "a", "b", "b"] ∧
    (ofMembers ["b", "", "a", "b"]).label = (ofMembers ["a", "b", "b", ""]).label ∧
    (ofMembers ["b", "", "a", "b"]).label ≠ (ofMembers ["a", "b", ""]).label := by
  have hdecodes := label_decodes.2.1 ["b", "", "a", "b"] (by decide) (by decide)
  have hmembers : (ofMembers ["b", "", "a", "b"]).members = ["", "a", "b", "b"] :=
    members_eq_of_perm_of_sorted (by decide) (by decide)
  have hlabel : (ofMembers ["b", "", "a", "b"]).label = "-a-b-b" := by
    rw [label, hmembers]
    rfl
  obtain ⟨hback, hiff⟩ := hdecodes
  rw [hlabel, hmembers] at hback
  refine ⟨hlabel, hback, ?_, ?_⟩
  · exact (hiff ["a", "b", "b", ""] (by decide) (by decide)).2 (by decide)
  · exact mt (hiff ["a", "b", ""] (by decide) (by decide)).1 (by decide)

end Combination

end ComboTree
