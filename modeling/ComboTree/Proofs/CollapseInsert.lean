import ComboTree.Operations
import ComboTree.Proofs.Depths
import ComboTree.Proofs.Lookup
import ComboTree.Proofs.RoundTrip

/-!
# Collapsing what was expanded and then extended

In the strict form of the notation a label shows exactly the tokens that it stands for.  An
insertion adds the tokens of its last segment to the depth of that segment, so after any insertions
a depth shows the tokens of the base and of the insertions to it; and collapsing without validation
writes them as a path structure, which is read back as what it shows.

## Key results

- `mem_labelTokens_insertedLabels_iff`: what the labels of an insertion show
- `mem_tokensAt_insertAll`: the tokens of each depth after a run of insertions
- `mem_tokensAt_expand`: the tokens of each depth of an expansion
- `collapse_unvalidated`: what is written is read back
- `collapseTree_insert`: all of these for a whole run
-/

namespace ComboTree

open Combination (labelTokens)
open PathStructure (IsToken Offers Segmented alternativeSeparator)
open Text (pieces)

variable {policy : Policy} {mode : InsertMode} {t u : Tree}

/-! ## Insertions -/

/-- A token of the strict form is a label that shows itself. -/
theorem labelTokens_of_isToken {token : String} (h : IsToken true token) :
    labelTokens token = [token] :=
  Combination.labelTokens_eq_singleton (h.no_dash rfl)

/-- The labels of all combinations show the tokens that are combined. -/
theorem mem_labelTokens_combinationLabels_iff {ts : List String}
    (h : ∀ token ∈ ts, IsToken true token) (token : String) :
    (∃ label ∈ combinationLabels ts, token ∈ labelTokens label) ↔ token ∈ ts := by
  rw [← List.mem_flatMap, ← List.mem_eraseDups, eraseDups_labelTokens_combinationLabels,
    eraseDups_labelTokens_distinctSorted fun token ht => (h token ht).no_dash rfl,
    mem_distinctSorted]

/-- In either mode the labels show the tokens that are inserted. -/
theorem Policy.mem_labelTokens_insertedLabels_iff {added labels : List String}
    (hlabels : policy.insertedLabels mode added = .ok labels)
    (hadded : ∀ token ∈ added, IsToken true token) {token : String} :
    (∃ label ∈ labels, token ∈ labelTokens label) ↔ token ∈ added := by
  -- tokens are labels themselves, and combinations are made of all of them
  cases mode with
  | literal =>
    obtain rfl := Except.ok.inj hlabels
    constructor
    · rintro ⟨label, hlabel, htoken⟩
      rw [labelTokens_of_isToken (hadded label hlabel), List.mem_singleton] at htoken
      rwa [htoken]
    · intro htoken
      exact ⟨token, htoken, by simp [labelTokens_of_isToken (hadded token htoken)]⟩
  | combination =>
    obtain ⟨-, rfl⟩ := labelsOf_eq_ok_iff.1 hlabels
    exact mem_labelTokens_combinationLabels_iff hadded token

/-- The text `path` offers `token` in its last segment, and has `d` segments above that. -/
def PathStructure.EndsWith (path : String) (d : Nat) (token : String) : Prop :=
  ∃ above last alternatives, Segmented path (above ++ [last]) ∧ above.length = d ∧
    Offers last alternatives ∧ token ∈ alternatives

open PathStructure (EndsWith)

/-- The step: an insertion that succeeds adds the tokens of its last segment to their depth. -/
theorem Policy.mem_tokensAt_insert (hstrict : policy.strict = true) (hl : t.Linked) {path : String}
    {handles : List Nat} (h : policy.insert mode t path = .ok (handles, u)) :
    u.Linked ∧ (∀ d token, EndsWith path d token → IsToken true token) ∧
      ∀ d token, token ∈ u.tokensAt d ↔ token ∈ t.tokensAt d ∨ EndsWith path d token := by
  obtain ⟨above, last, parent, added, labels, hsegs, hwalk, htokens, hlabels, -, rfl⟩ :=
    insert_eq_ok_iff.1 h
  have hsegmented := PathStructure.segmented_of_segments hsegs
  obtain ⟨alternatives, hoffers, halternatives, rfl⟩ :=
    (PathStructure.tokens_eq_ok_iff_offers (hsegmented.no_slash last (by simp))).1 htokens
  obtain ⟨hparent, hway⟩ := hl.way_of_walk? hwalk
  -- a text is cut in one way only, so what it ends with is what was inserted
  have hends : ∀ d token, EndsWith path d token ↔ above.length = d ∧ token ∈ alternatives := by
    intro d token
    constructor
    · rintro ⟨above', last', alternatives', hsegmented', hd, hoffers', htoken⟩
      obtain ⟨rfl, hlast⟩ := List.append_inj' (hsegmented.unique hsegmented') rfl
      obtain rfl := List.singleton_inj.1 hlast
      rw [PathStructure.offers_iff] at hoffers hoffers'
      rw [← hoffers, hoffers']
      exact ⟨hd, htoken⟩
    · rintro ⟨hd, htoken⟩
      exact ⟨above, last, alternatives, hsegmented, hd, hoffers, htoken⟩
  rw [hstrict] at halternatives
  have hadded : ∀ token ∈ alternatives.eraseDups, IsToken true token :=
    fun token ht => halternatives token (List.mem_eraseDups.1 ht)
  refine ⟨hl.addChildren parent labels, fun d token hmem => ?_, fun d token => ?_⟩
  · exact halternatives token ((hends d token).1 hmem).2
  · -- the parent is at the end of the way along the segments above
    have hdepth : (t.ancestors parent).length + 1 = above.length := by
      rw [← hway, Tree.length_way]
    rw [hl.mem_tokensAt_addChildren hparent, mem_labelTokens_insertedLabels_iff hlabels hadded,
      List.mem_eraseDups, hends, hdepth]

/-- The run: a depth has the tokens that it had, and those of the insertions to it. -/
theorem Policy.mem_tokensAt_insertAll (hstrict : policy.strict = true) (hl : t.Linked)
    {paths : List String} (h : policy.insertAll mode t paths = .ok u) :
    u.Linked ∧ (∀ path ∈ paths, ∀ d token, EndsWith path d token → IsToken true token) ∧
      ∀ d token, token ∈ u.tokensAt d ↔
        token ∈ t.tokensAt d ∨ ∃ path ∈ paths, EndsWith path d token := by
  -- the tokens of a depth are the disjunction that the steps build up, path by path
  induction paths generalizing t with
  | nil =>
    obtain rfl := Except.ok.inj h
    exact ⟨hl, by simp, by simp⟩
  | cons path paths ih =>
    obtain ⟨handles, v, hinsert, h⟩ := insertAll_cons_eq_ok_iff.1 h
    obtain ⟨hlv, htoken, hstep⟩ := mem_tokensAt_insert hstrict hl hinsert
    obtain ⟨hlu, htokens, hrun⟩ := ih hlv h
    refine ⟨hlu, List.forall_mem_cons.2 ⟨htoken, htokens⟩, fun d token => ?_⟩
    rw [hrun, hstep, List.exists_mem_cons_iff, or_assoc]

/-! ## The base -/

namespace Tree

/-- Below the root an expansion shows the tokens of the levels that it was made of. -/
theorem mem_tokensAt_expand {path : String} (hstrict : policy.strict = true)
    (h : policy.expand path = .ok t) : ∃ label levels,
      PathStructure.parse true path = .ok levels ∧ PathStructure.tokensAt levels 0 = [label] ∧
      0 < t.size ∧ t.labelAt 0 = label ∧ IsToken true label ∧
      ∀ d token, token ∈ t.tokensAt (d + 1) ↔ token ∈ PathStructure.tokensAt levels (d + 1) := by
  obtain ⟨root, label, below, hparse, hroot, rfl, hne⟩ := exists_product_of_expand h
  rw [hstrict] at hparse
  have htokens := PathStructure.isToken_of_parse hparse
  refine ⟨label, root :: below, hparse, hroot, size_product_pos _ _, ?_, ?_, fun d token => ?_⟩
  · rw [labelAt, label?_product_zero]
    rfl
  · exact htokens root List.mem_cons_self label (hroot ▸ List.mem_singleton_self label)
  · rw [← getD_levelTokens, map_levelTokens_product label hne, PathStructure.tokensAt,
      List.getElem?_cons_succ, List.getD_eq_getElem?_getD, List.getElem?_map, List.getElem?_map]
    -- beyond the last level neither side has anything to show
    cases hlevel : below[d]? with
    | none => rfl
    | some level =>
      have hmem := List.mem_cons_of_mem root (List.mem_of_getElem? hlevel)
      have hshown := mem_labelTokens_combinationLabels_iff (htokens level hmem) token
      rw [← List.mem_flatMap, ← List.mem_eraseDups] at hshown
      exact hshown

/-! ## Collapsing -/

/-- Collapsing without validation writes what the depths below the root show, and if that is tokens,
then it is read back. -/
theorem collapse_unvalidated (hpos : 0 < t.size) (hroot : IsToken true (t.labelAt 0))
    (htokens : ∀ d, ∀ token ∈ t.tokensAt (d + 1), IsToken true token) :
    ∃ q, t.collapse false = .ok q ∧ PathStructure.parse true q =
      .ok (PathStructure.levelsOf ([t.labelAt 0] :: t.levels.tail.map t.levelTokens)) := by
  refine ⟨_, collapse_false_of_pos hpos, ?_⟩
  refine PathStructure.parse_eq_ok_iff_writes.2 ⟨_, _, ⟨hroot, ?_, ?_, serialize_eq _ _⟩, rfl⟩
  · rw [List.forall_mem_map]
    intro level hlevel
    exact levelTokens_ne_nil (List.mem_of_mem_tail hlevel)
  · intro alternatives halternatives token htoken
    -- what is written between two separators is what one of the depths shows
    obtain ⟨d, hd, rfl⟩ := List.getElem_of_mem halternatives
    apply htokens d
    rwa [← getD_levelTokens, List.getD_eq_getElem?_getD, List.getElem?_eq_getElem hd]

end Tree

/-- In the strict form of the notation, and without validation, an expansion that insertions have
extended collapses to a path structure with as many levels as the tree is deep.  Its root token is
that of the base, and each level below has the tokens of that level of the base, and of the last
segments of the insertions to that depth: none is lost, none comes from elsewhere. -/
theorem Settings.collapseTree_insert {s : Settings} {base : String} {paths : List String}
    (hstrict : s.strictTokens = true) (hvalidate : s.validateUniformLevels = false)
    (h : s.insert mode base paths = .ok t) :
    ∃ q levels baseLevels root, s.collapseTree t = .ok q ∧
      PathStructure.parse true q = .ok levels ∧ PathStructure.parse true base = .ok baseLevels ∧
      levels.length = t.depth ∧
      PathStructure.tokensAt baseLevels 0 = [root] ∧ PathStructure.tokensAt levels 0 = [root] ∧
      ∀ d, 1 ≤ d → ∀ token, token ∈ PathStructure.tokensAt levels d ↔
        token ∈ PathStructure.tokensAt baseLevels d ∨ ∃ path ∈ paths, EndsWith path d token := by
  obtain ⟨start, hstart, hinsert⟩ := Except.bind_eq_ok_iff.1 h
  have hpolicy : s.policy.strict = true := hstrict
  obtain ⟨root, baseLevels, hparse, hbase, hpos, hlabel, hroot, hshown⟩ :=
    Tree.mem_tokensAt_expand hpolicy hstart
  have hgrows := Policy.insertAll_grows hinsert
  obtain ⟨hl, hends, hunion⟩ :=
    Policy.mem_tokensAt_insertAll hpolicy (Tree.navigable_expand hstart).linked hinsert
  have hlabel' : t.labelAt 0 = root := (hgrows.labelAt_eq hpos).trans hlabel
  have hpos' := Nat.lt_of_lt_of_le hpos hgrows.size_le
  -- a token that is shown is one of the base or one of an insertion, and was checked there
  have htokens : ∀ d, ∀ token ∈ t.tokensAt (d + 1), IsToken true token := by
    intro d token htoken
    rcases (hunion (d + 1) token).1 htoken with hold | ⟨path, hpath, hnew⟩
    · obtain ⟨level, hlevel, hold⟩ :=
        PathStructure.exists_mem_of_mem_tokensAt ((hshown d token).1 hold)
      exact PathStructure.isToken_of_parse hparse _ hlevel token hold
    · exact hends path hpath (d + 1) token hnew
  -- all that is shown is tokens, so what is written is read back
  obtain ⟨q, hq, hread⟩ := Tree.collapse_unvalidated hpos' (hlabel'.symm ▸ hroot) htokens
  rw [hlabel'] at hread
  refine ⟨q, _, baseLevels, root, ?_, hread, hparse, ?_, hbase, ?_, fun d hd token => ?_⟩
  · rw [collapseTree, hvalidate, hq]
  · -- the root and the levels below it
    have hlength := List.length_pos_of_ne_nil (hl.levels_ne_nil hpos')
    rw [PathStructure.levelsOf, List.length_map, List.length_zipIdx, List.length_cons,
      List.length_map, List.length_tail, ← Tree.length_levels]
    omega
  · rw [PathStructure.tokensAt_levelsOf]
    exact List.eraseDups_eq_self (List.nodup_singleton root)
  · obtain ⟨d, rfl⟩ := Nat.exists_eq_add_of_le' hd
    rw [PathStructure.tokensAt_levelsOf, List.getD_cons_succ, Tree.getD_levelTokens,
      List.mem_eraseDups, hunion, hshown]

/-- Two insertions to one depth, the second below a combination. -/
theorem Settings.collapseTree_insert_home :
    Settings.insert { strictTokens := true } .combination "/home/a|b"
        ["/home/a/x|y", "/home/a-b/z"] =
      .ok (((Tree.product "home" [["a", "b", "a-b"]]).addChildren 1 ["x", "y", "x-y"]).addChildren 3
        ["z"]) ∧
    ∃ q levels, (((Tree.product "home" [["a", "b", "a-b"]]).addChildren 1
        ["x", "y", "x-y"]).addChildren 3 ["z"]).collapse false = .ok q ∧
      PathStructure.parse true q = .ok levels ∧ levels.length = 3 ∧
      "z" ∈ PathStructure.tokensAt levels 2 := by
  have h : Settings.insert { strictTokens := true } .combination "/home/a|b"
      ["/home/a/x|y", "/home/a-b/z"] = .ok (((Tree.product "home" [["a", "b", "a-b"]]).addChildren 1
        ["x", "y", "x-y"]).addChildren 3 ["z"]) := by
    cbv
  obtain ⟨q, levels, _, _, hq, hlevels, -, hlength, -, -, htokens⟩ := collapseTree_insert rfl rfl h
  have hz : EndsWith "/home/a-b/z" 2 "z" :=
    ⟨["home", "a-b"], "z", ["z"], ⟨by simp, by decide, by decide⟩, rfl, ⟨by simp, by decide, rfl⟩,
      by simp⟩
  refine ⟨h, q, levels, hq, hlevels, hlength.trans (by cbv), ?_⟩
  exact (htokens 2 (by decide) "z").2 (.inr ⟨_, by simp, hz⟩)

end ComboTree
