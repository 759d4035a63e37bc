import ComboTree.Proofs.InPlace

/-!
# The walk of an insertion

An insertion looks for its parent with a walk of its own, which names the segment that it could not
follow.  It goes the way that looking up the path above the last segment goes, also where siblings
have equal labels, so the two find the same node or none.  Where there is none, the segment that is
named ends the shortest path that leads nowhere.

## Key results

- `descend?_of_follow_eq_error`: where the walk below the root stops
- `lostAt_of_walk?`: a walk that cannot go on, as look-ups of longer and longer paths
- `findChild?_addChildren`: looking for a label among old and new children
- `Policy.insert_eq_of_walk?`, `Policy.locate_eq_error_of_walk?`: insertions with and without parent
- `Policy.insert_along_nodeAtPath?`: the two walks agree
-/

namespace ComboTree

open PathStructure (ofSegments segments tokens Segmented)

namespace Tree

variable {t : Tree}

/-! ## Where a walk stops -/

/-- The segment at `i` has the given label and is the first that the look-up cannot follow. -/
structure LostAt (t : Tree) (segs : List String) (i : Nat) (label : String) : Prop where
  segment : segs[i]? = some label
  not_found : t.nodeAtPath? (ofSegments (segs.take (i + 1))) = none
  found_above : ∀ j < i, ∃ n, t.nodeAtPath? (ofSegments (segs.take (j + 1))) = some n

/-- Following labels stops at a node that has no child with the next one. -/
theorem descend?_of_follow_eq_error {n : Nat} {label : String} {labels : List String}
    (h : t.follow n labels = .error label) : ∃ before after m, labels = before ++ label :: after ∧
      t.descend? n before = some m ∧ t.findChild? m label = none := by
  -- along the labels: either the first child is missing, or the walk stops below it
  induction labels generalizing n with
  | nil => exact nomatch h
  | cons first labels ih =>
    rw [follow, List.foldlM_cons] at h
    cases hchild : t.findChild? n first with
    | none =>
      rw [hchild] at h
      obtain rfl := Except.error.inj h
      exact ⟨[], labels, n, rfl, rfl, hchild⟩
    | some c =>
      rw [hchild] at h
      obtain ⟨before, after, m, rfl, hdescend, hnone⟩ := ih h
      refine ⟨first :: before, after, m, rfl, ?_, hnone⟩
      rw [descend?_cons, hchild]
      exact hdescend

/-- Looking up the path of some segments is a walk along them. -/
theorem nodeAtPath?_ofSegments {segs : List String} (hne : segs ≠ [])
    (hslash : ∀ s ∈ segs, '/' ∉ s.toList) : t.nodeAtPath? (ofSegments segs) = t.walk? segs :=
  nodeAtPath?_eq_walk? ⟨hne, hslash, rfl⟩

/-- A walk that cannot go on is lost where it was last, and no earlier. -/
theorem lostAt_of_walk? {before after : List String} {label : String}
    (hslash : ∀ s ∈ before ++ label :: after, '/' ∉ s.toList)
    (hlost : t.walk? (before ++ [label]) = none)
    (hbefore : before = [] ∨ ∃ n, t.walk? before = some n) :
    t.LostAt (before ++ label :: after) before.length label := by
  -- every look-up of the first segments is a walk, so that walks alone are left to compare
  have hlookup : ∀ i, t.nodeAtPath? (ofSegments ((before ++ label :: after).take (i + 1))) =
      t.walk? ((before ++ label :: after).take (i + 1)) := by
    intro i
    refine nodeAtPath?_ofSegments ?_ fun s hs => hslash s (List.mem_of_mem_take hs)
    simp
  constructor
  case segment => simp
  case not_found =>
    rw [hlookup, List.take_length_add_append]
    exact hlost
  case found_above =>
    intro j hj
    rcases hbefore with rfl | ⟨n, hn⟩
    · exact absurd hj (Nat.not_lt_zero j)
    · -- the walk has been at each node above the one that it ends at
      have hne : before.take (j + 1) ≠ [] := by
        rw [← List.length_pos_iff, List.length_take]
        omega
      rw [← List.take_append_drop (j + 1) before, walk?_append hne] at hn
      obtain ⟨m, hm, -⟩ := Option.bind_eq_some_iff.1 hn
      exact ⟨m, by rw [hlookup, List.take_append_of_le_length hj, hm]⟩

/-! ## Old and new children -/

/-- After labels have been added, each is found below the parent, among the new children if none of
the old ones had it. -/
theorem findChild?_addChildren {parent : Nat} (h : parent < t.size) {labels : List String}
    {label : String} (hlabel : label ∈ labels) :
    ∃ n, (t.addChildren parent labels).findChild? parent label = some n ∧
      (n ∈ List.range' t.size labels.length ↔ label ∉ t.childLabels parent) := by
  have hgrows := grows_addChildren t parent labels
  -- an old child with the label stands before all new ones, and is found instead of them
  by_cases hold : label ∈ t.childLabels parent
  · obtain ⟨c, hc, hclabel⟩ := List.mem_filterMap.1 hold
    obtain ⟨n, hn⟩ := exists_findChild?_eq_some hc hclabel
    have hlt := (mem_children_bounds (findChild?_eq_some hn).1).2
    refine ⟨n, hgrows.findChild? hn, ?_⟩
    simp only [List.mem_range'_1, hold, not_true_eq_false, iff_false]
    omega
  · obtain ⟨i, hi, rfl⟩ := List.mem_iff_getElem.1 hlabel
    have hnew : t.size + i ∈ (t.addChildren parent labels).children parent := by
      rw [children_addChildren h, if_pos rfl]
      exact List.mem_append_right _ (List.mem_range'_1.2 ⟨by omega, by omega⟩)
    obtain ⟨n, hn⟩ := exists_findChild?_eq_some hnew
      ((label?_eq_some (mem_children_bounds hnew).2).trans
        (congrArg some (labelAt_addChildren_new h hi)))
    refine ⟨n, hn, ?_⟩
    obtain ⟨hmem, hnlabel⟩ := findChild?_eq_some hn
    rw [children_addChildren h, if_pos rfl] at hmem
    rcases List.mem_append.1 hmem with hmem | hmem
    · -- an old child with the label was there before
      rw [hgrows.label?_eq (mem_children_bounds hmem).2] at hnlabel
      exact absurd (List.mem_filterMap.2 ⟨n, hmem, hnlabel⟩) hold
    · exact iff_of_true hmem hold

/-- The same for look-ups of paths that go on from the parent's. -/
theorem nodeAtPath?_addChildren {above labels : List String} {parent : Nat} (hne : above ≠ [])
    (hwalk : t.walk? above = some parent) {label : String} (hlabel : label ∈ labels)
    (hslash : ∀ s ∈ above ++ [label], '/' ∉ s.toList) :
    ∃ n, (t.addChildren parent labels).nodeAtPath? (ofSegments (above ++ [label])) = some n ∧
      (n ∈ List.range' t.size labels.length ↔ label ∉ t.childLabels parent) := by
  obtain ⟨n, hn, hnew⟩ := findChild?_addChildren (lt_size_of_walk? hwalk) hlabel
  refine ⟨n, ?_, hnew⟩
  rw [nodeAtPath?_ofSegments (List.concat_ne_nil label above) hslash, walk?_concat hne,
    (grows_addChildren t parent labels).walk? hwalk, Option.bind_some, hn]

end Tree

/-! ## Insertions -/

namespace Policy

variable {policy : Policy} {t : Tree} {path last : String} {above added : List String}

/-- With a parent, what is left to fail is the number of labels. -/
theorem insert_eq_of_walk? (hsegs : segments path = .ok (above ++ [last]))
    (htokens : tokens policy.strict path above.length last = .ok added) {parent : Nat}
    (hwalk : t.walk? above = some parent) (mode : InsertMode) :
    policy.insert mode t path = (policy.insertedLabels mode added).map fun labels =>
      (List.range' t.size labels.length, t.addChildren parent labels) := by
  rw [insert, locate_eq_of_walk? hsegs hwalk, htokens]
  rfl

/-- A tree without nodes, or with another root, has no parent for any path. -/
theorem locate_eq_error_of_root {root : String} {below : List String}
    (hsegs : segments path = .ok (root :: below ++ [last]))
    (htokens : tokens policy.strict path (below.length + 1) last = .ok added)
    (hroot : t.walk? [root] = none) :
    policy.locate t path = .error (.parentNotFound path root) := by
  rw [locate_eq hsegs, htokens, Tree.root?_eq]
  by_cases hsize : t.size = 0
  · rw [if_pos hsize]
    rfl
  · -- a walk that fails at the first segment of a tree with nodes has met another root
    have hother : t.label? 0 ≠ some root := by
      intro hlabel
      have hpos := Nat.pos_of_ne_zero hsize
      rw [Tree.walk?_cons_eq_some_iff.2 ⟨hpos, hlabel, rfl⟩] at hroot
      exact nomatch hroot
    simp [hsize, hother, bind, Except.bind]

/-- Below its root an insertion follows the labels of its path. -/
theorem locate_eq_follow {root : String} {below : List String}
    (hsegs : segments path = .ok (root :: below ++ [last]))
    (htokens : tokens policy.strict path (below.length + 1) last = .ok added) {n : Nat}
    (hroot : t.walk? [root] = some n) :
    policy.locate t path =
      ((t.follow n below).mapError fun label => Fault.parentNotFound path label).map (·, added) := by
  obtain ⟨hpos, hlabel, hn⟩ := Tree.walk?_cons_eq_some_iff.1 hroot
  obtain rfl := Option.some.inj hn
  rw [locate_eq hsegs, htokens, Tree.root?_eq, if_neg (Nat.ne_of_gt hpos)]
  simp only [bind, Except.bind, if_pos hlabel]
  cases t.follow 0 below <;> rfl

/-- Without a parent, the fault names the segment that the walk could not follow. -/
theorem locate_eq_error_of_walk? (hsegs : segments path = .ok (above ++ [last])) (hne : above ≠ [])
    (htokens : tokens policy.strict path above.length last = .ok added)
    (hwalk : t.walk? above = none) :
    ∃ before label after, above = before ++ label :: after ∧
      t.walk? (before ++ [label]) = none ∧ (before = [] ∨ ∃ n, t.walk? before = some n) ∧
      policy.locate t path = .error (.parentNotFound path label) := by
  obtain ⟨root, below, rfl⟩ := List.exists_cons_of_ne_nil hne
  rw [List.length_cons] at htokens
  -- the root is compared before the walk below it starts, so it is the first one to be lost
  cases hroot : t.walk? [root] with
  | none =>
    exact ⟨[], root, below, rfl, hroot, .inl rfl, locate_eq_error_of_root hsegs htokens hroot⟩
  | some n =>
    -- from here on both walks start at the node of the root
    have hway : ∀ labels, t.walk? (root :: labels) = t.descend? n labels := by
      intro labels
      rw [← List.singleton_append, Tree.walk?_append (List.cons_ne_nil _ _), hroot]
      rfl
    rw [locate_eq_follow hsegs htokens hroot]
    cases hfollow : t.follow n below with
    | ok m =>
      rw [hway, Tree.follow_eq_ok_iff.1 hfollow] at hwalk
      exact nomatch hwalk
    | error label =>
      obtain ⟨before, after, m, rfl, hdescend, hnone⟩ := Tree.descend?_of_follow_eq_error hfollow
      have hbefore : t.walk? (root :: before) = some m := by rw [hway, hdescend]
      refine ⟨root :: before, label, after, rfl, ?_, .inr ⟨m, hbefore⟩, rfl⟩
      rw [Tree.walk?_concat (List.cons_ne_nil _ _), hbefore]
      exact hnone

/-- The same for whole insertions, and with look-ups in place of walks. -/
theorem insert_eq_error_of_walk? (hsegs : segments path = .ok (above ++ [last])) (hne : above ≠ [])
    (htokens : tokens policy.strict path above.length last = .ok added)
    (hwalk : t.walk? above = none) :
    ∃ i label, t.LostAt above i label ∧
      ∀ mode, policy.insert mode t path = .error (.parentNotFound path label) := by
  have hslash := (PathStructure.segmented_of_segments hsegs).no_slash
  obtain ⟨before, label, after, rfl, hlost, hbefore, hlocate⟩ :=
    locate_eq_error_of_walk? hsegs hne htokens hwalk
  refine ⟨before.length, label, Tree.lostAt_of_walk? ?_ hlost hbefore, fun mode => ?_⟩
  · exact fun s hs => hslash s (List.mem_append_left _ hs)
  · rw [insert, hlocate]
    rfl

/-- Tokens are distinct, so there are as many as are counted. -/
theorem card_toFinset_of_tokens {strict : Bool} {depth : Nat} (hslash : '/' ∉ last.toList)
    (htokens : tokens strict path depth last = .ok added) : added.toFinset.card = added.length := by
  obtain ⟨alternatives, -, -, rfl⟩ := (PathStructure.tokens_eq_ok_iff_offers hslash).1 htokens
  exact List.toFinset_card_of_nodup (List.nodup_eraseDups alternatives)

/-- An insertion and the look-up of the path above its last segment go the same way.  If the look-up
finds a node, a literal insertion succeeds and adds the tokens below that very node; looking up one
of them then finds a new node just when no child had that label before.  Combinations are added below
the same node, unless there are too many tokens for them.  If the look-up finds no node, the
insertion fails in either mode, for the first segment at which looking up the path so far fails. -/
theorem insert_along_nodeAtPath? (hsegs : segments path = .ok (above ++ [last])) (hne : above ≠ [])
    (htokens : tokens policy.strict path above.length last = .ok added) (t : Tree) :
    ((∃ result, policy.insert .literal t path = .ok result) ↔
      ∃ q, t.nodeAtPath? (ofSegments above) = some q) ∧
    (∀ q, t.nodeAtPath? (ofSegments above) = some q →
      (∃ handles u, policy.insert .literal t path = .ok (handles, u) ∧
        t.Attaches u q handles added ∧
        ∀ token ∈ added, ∃ n, u.nodeAtPath? (ofSegments (above ++ [token])) = some n ∧
          (n ∈ handles ↔ token ∉ t.childLabels q)) ∧
      (added.length ≤ policy.maxAlternatives →
        ∃ handles u, policy.insert .combination t path = .ok (handles, u) ∧
          t.Attaches u q handles (combinationLabels added)) ∧
      (policy.maxAlternatives < added.length →
        policy.insert .combination t path =
          .error (.tooManyAlternatives added.length policy.maxAlternatives))) ∧
    (t.nodeAtPath? (ofSegments above) = none →
      ∃ i label, t.LostAt above i label ∧
        ∀ mode, policy.insert mode t path = .error (.parentNotFound path label)) := by
  have hslash := (PathStructure.segmented_of_segments hsegs).no_slash
  have habove : ∀ s ∈ above, '/' ∉ s.toList := fun s hs => hslash s (List.mem_append_left _ hs)
  have hlast : '/' ∉ last.toList := hslash last (by simp)
  -- the look-up becomes the walk of the insertion, and the two lemmas on it give all parts
  rw [Tree.nodeAtPath?_ofSegments hne habove]
  have hcard := card_toFinset_of_tokens hlast htokens
  have hinsert : ∀ {q}, t.walk? above = some q → ∀ mode, policy.insert mode t path = _ :=
    insert_eq_of_walk? hsegs htokens
  refine ⟨⟨?_, ?_⟩, fun q hq => ⟨?_, ?_, ?_⟩, insert_eq_error_of_walk? hsegs hne htokens⟩
  · rintro ⟨result, hresult⟩
    cases hwalk : t.walk? above with
    | some q => exact ⟨q, rfl⟩
    | none =>
      obtain ⟨_, _, -, hfails⟩ := insert_eq_error_of_walk? hsegs hne htokens hwalk
      rw [hfails] at hresult
      exact nomatch hresult
  · rintro ⟨q, hq⟩
    exact ⟨_, hinsert hq .literal⟩
  · have hknown := Tree.lt_size_of_walk? hq
    refine ⟨_, _, hinsert hq .literal, Tree.attaches_addChildren hknown added, ?_⟩
    intro token htoken
    have htoken_slash := (PathStructure.isToken_of_tokens htokens hlast token htoken).no_slash
    refine Tree.nodeAtPath?_addChildren hne hq htoken fun s hs => ?_
    rcases List.mem_append.1 hs with hs | hs
    · exact habove s hs
    · rwa [List.mem_singleton.1 hs]
  · intro hle
    have hlabels : policy.insertedLabels .combination added = .ok (combinationLabels added) :=
      labelsOf_eq_ok_iff.2 ⟨hcard ▸ hle, rfl⟩
    refine ⟨_, _, ?_, Tree.attaches_addChildren (Tree.lt_size_of_walk? hq) _⟩
    rw [hinsert hq, hlabels]
    rfl
  · intro hlt
    have hlabels : policy.insertedLabels .combination added = .error _ :=
      labelsOf_eq_error_iff.2 ⟨hcard ▸ hlt, rfl⟩
    rw [hinsert hq, hlabels, hcard]
    rfl

/-- Two siblings have the same label, and only the second of them has a child.  The first one is
found, and what is below the second one is not. -/
theorem insert_along_nodeAtPath?_twins :
    let t := (Tree.ofRoot "home").afterEdits [.addChild 0 "a", .addChild 0 "a", .addChild 2 "b"]
    (∃ handles u, insert {} .literal t "/home/a/x|y|x" = .ok (handles, u) ∧
      t.Attaches u 1 handles ["x", "y"]) ∧
    t.nodeAtPath? "/home/a/b" = none ∧
    ∃ i label, t.LostAt ["home", "a", "b"] i label ∧
      insert {} .literal t "/home/a/b/c" = .error (.parentNotFound "/home/a/b/c" label) := by
  intro t
  have hfound : t.nodeAtPath? "/home/a" = some 1 := by unfold t; cbv
  have hmissing : t.nodeAtPath? "/home/a/b" = none := by unfold t; cbv
  have hsegs : segments "/home/a/x|y|x" = .ok (["home", "a"] ++ ["x|y|x"]) := by cbv
  have htokens : tokens (strict {}) "/home/a/x|y|x" 2 "x|y|x" = .ok ["x", "y"] := by cbv
  have hsegs' : segments "/home/a/b/c" = .ok (["home", "a", "b"] ++ ["c"]) := by cbv
  have htokens' : tokens (strict {}) "/home/a/b/c" 3 "c" = .ok ["c"] := by cbv
  obtain ⟨-, hadds, -⟩ := insert_along_nodeAtPath? hsegs (by decide) htokens t
  obtain ⟨-, -, hfails⟩ := insert_along_nodeAtPath? hsegs' (by decide) htokens' t
  obtain ⟨⟨handles, u, hinsert, hattaches, -⟩, -, -⟩ := hadds 1 hfound
  obtain ⟨i, label, hlost, herror⟩ := hfails hmissing
  exact ⟨⟨handles, u, hinsert, hattaches⟩, hmissing, i, label, hlost, herror .literal⟩

end Policy

end ComboTree
