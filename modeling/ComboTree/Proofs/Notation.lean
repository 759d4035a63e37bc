import ComboTree.PathStructure
import ComboTree.Proofs.Lists

/-!
# What a path structure is read as

The levels that `parse` answers with, for a text that it accepts.

## Key results

- `tokens_eq_ok_iff`: the alternatives of a segment, each without a problem
- `parse_eq_ok_iff`: one level per segment
- `tokens_ne_nil_of_parse`, `not_mem_of_parse_strict`: no level is empty, and in the strict form no
  token holds the character that joins the members of a combination
-/

namespace ComboTree.PathStructure

open Text (pieces)

/-- A token is in order if it is not empty and, in the strict form, holds no member separator. -/
theorem tokenProblem?_eq_none_iff {strict : Bool} {depth : Nat} {token : String} :
    tokenProblem? strict depth token = none ↔
      token ≠ "" ∧ ¬ (strict = true ∧ memberSeparator ∈ token.toList) := by
  unfold tokenProblem?
  split
  · simp_all
  · split <;> simp_all

/-- A segment is accepted when none of its alternatives has a problem. -/
theorem tokens_eq_ok_iff {strict : Bool} {path : String} {depth : Nat} {segment : String}
    {ts : List String} :
    tokens strict path depth segment = .ok ts ↔
      (∀ a ∈ pieces alternativeSeparator segment, tokenProblem? strict depth a = none) ∧
        (pieces alternativeSeparator segment).eraseDups = ts := by
  simp only [tokens]
  split
  · rename_i problem h
    -- the problem that was reported is that of one of the alternatives
    obtain ⟨a, ha, hproblem⟩ := List.exists_of_findSome?_eq_some h
    simp only [reduceCtorEq, false_iff, not_and]
    intro hnone
    rw [hnone a ha] at hproblem
    exact nomatch hproblem
  · rename_i h
    rw [List.findSome?_eq_none_iff] at h
    rw [Except.ok.injEq]
    exact ⟨fun heq => ⟨h, heq⟩, And.right⟩

/-- The levels are the segments in order, each with its alternatives. -/
theorem parse_eq_ok_iff {strict : Bool} {path : String} {levels : List Level} :
    parse strict path = .ok levels ↔ ∃ segs, segments path = .ok segs ∧
      List.Forall₂ (fun (segment, depth) level =>
        level.depth = depth ∧ tokens strict path depth segment = .ok level.tokens)
        segs.zipIdx levels := by
  -- one level: its depth is the place of its segment, and its tokens are those of the segment
  have hlevel : ∀ (entry : String × Nat) (level : Level),
      (do return { depth := entry.2, tokens := ← tokens strict path entry.2 entry.1 } :
        Except Fault Level) = .ok level ↔
      level.depth = entry.2 ∧ tokens strict path entry.2 entry.1 = .ok level.tokens := by
    intro entry level
    cases tokens strict path entry.2 entry.1 with
    | error e => simp [bind, Except.bind]
    | ok ts =>
      cases level
      simp [bind, Except.bind, pure, Except.pure, eq_comm]
  cases hsegs : segments path with
  | error e => simp [parse, hsegs, bind, Except.bind]
  | ok segs =>
    have hparse : parse strict path = segs.zipIdx.mapM fun entry => do
        return { depth := entry.2, tokens := ← tokens strict path entry.2 entry.1 } := by
      rw [parse, hsegs]
      rfl
    rw [hparse, List.mapM_eq_ok_iff]
    simp only [hlevel, Except.ok.injEq, exists_eq_left']

/-- Every level of an accepted text comes from a segment of it. -/
theorem exists_tokens_of_mem_parse {strict : Bool} {path : String} {levels : List Level}
    (h : parse strict path = .ok levels) {level : Level} (hl : level ∈ levels) :
    ∃ segment, tokens strict path level.depth segment = .ok level.tokens := by
  obtain ⟨segs, -, hall⟩ := parse_eq_ok_iff.1 h
  obtain ⟨⟨segment, depth⟩, -, rfl, htokens⟩ := List.exists_of_mem_forall₂ hall hl
  exact ⟨segment, htokens⟩

/-- No level of an accepted text is empty. -/
theorem tokens_ne_nil_of_parse {strict : Bool} {path : String} {levels : List Level}
    (h : parse strict path = .ok levels) {level : Level} (hl : level ∈ levels) :
    level.tokens ≠ [] := by
  obtain ⟨segment, htokens⟩ := exists_tokens_of_mem_parse h hl
  obtain ⟨-, htokens⟩ := tokens_eq_ok_iff.1 htokens
  -- a text has at least one piece, however it is cut
  obtain ⟨a, ha⟩ := List.exists_mem_of_ne_nil _ (Text.pieces_ne_nil alternativeSeparator segment)
  exact List.ne_nil_of_mem (htokens ▸ List.mem_eraseDups.2 ha)

/-- In the strict form no token holds the member separator. -/
theorem not_mem_of_parse_strict {path : String} {levels : List Level}
    (h : parse true path = .ok levels) {level : Level} (hl : level ∈ levels) {token : String}
    (ht : token ∈ level.tokens) : memberSeparator ∉ token.toList := by
  obtain ⟨segment, htokens⟩ := exists_tokens_of_mem_parse h hl
  obtain ⟨hnone, htokens⟩ := tokens_eq_ok_iff.1 htokens
  rw [← htokens, List.mem_eraseDups] at ht
  have hproblem := (tokenProblem?_eq_none_iff.1 (hnone token ht)).2
  exact fun hmem => hproblem ⟨rfl, hmem⟩

end ComboTree.PathStructure
