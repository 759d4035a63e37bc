import ComboTree.Proofs.MutualSynonyms

/-!
# Where an expansion has synonyms

In an expansion the nodes of one depth have the same child labels, so a node has a synonym as soon as
its depth has another node, its peer, that the rule keeps.  A level with two tokens or more gives
every node above it several children, of which the first two have different labels; and from there
down every node has a peer, since the sibling of a node above it has descendants as well.  A search
may still end earlier, at a node that has the same child labels by accident, but never deeper.

Where every level has one token the expansion is a chain.  Of any two nodes one is above the other,
so nothing is left to a search that leaves out the lineage.

## Key results

- `length_children_expand`: how many children a node of an expansion has
- `Regular.exists_sibling`, `Regular.exists_peer`: another node at the same depth
- `Regular.answersByDepth_of_peer`: the search ends at a peer at the latest
- `Linked.comparable_of_chain`: two nodes of a tree that does not branch
- `findSynonym?_expand`: which searches in an expansion have an answer
-/

namespace ComboTree.Tree

open PathStructure (parse)

variable {t : Tree} {rule : SynonymRule} {n c p w d : Nat}

/-! ## Children -/

/-- Every child has a label. -/
theorem length_childLabels (t : Tree) (n : Nat) :
    (t.childLabels n).length = (t.children n).length := by
  rw [childLabels_eq_map, List.length_map]

/-- A node of an expansion has a child for every non-empty set of tokens of the next level. -/
theorem length_children_expand {policy : Policy} {path : String} {levels : List Level}
    (h : policy.expand path = .ok t) (hparse : parse policy.strict path = .ok levels)
    (hn : n < t.size) : (t.children n).length =
      2 ^ (PathStructure.tokensAt levels ((t.ancestors n).length + 1)).toFinset.card - 1 := by
  obtain ⟨root, _, below, choices, hparse', -, rfl, -, hnodes, -, -⟩ := expand_product h
  rw [hparse] at hparse'
  obtain rfl := Except.ok.inj hparse'
  obtain ⟨-, hlabels, -⟩ := hnodes n (contains_iff.2 hn)
  rw [← length_childLabels, hlabels, PathStructure.tokensAt, List.getElem?_cons_succ,
    List.getD_eq_getElem?_getD, List.getElem?_map]
  cases below[(t.ancestors n).length]? with
  | none => rfl
  | some level =>
    show (combinationLabels level.tokens).length = 2 ^ level.tokens.toFinset.card - 1
    rw [combinationLabels, List.length_map, length_combinations]

/-! ## Peers -/

/-- Where a node has two children or more, each has a sibling with another label. -/
theorem Regular.exists_sibling (h : t.Regular) (hc : c ∈ t.children p)
    (htwo : 2 ≤ (t.children p).length) : ∃ w ∈ t.children p, t.label? w ≠ t.label? c := by
  match hchildren : t.children p with
  | [] => exact absurd (hchildren ▸ hc) List.not_mem_nil
  | [_] =>
    rw [hchildren, List.length_singleton] at htwo
    omega
  | first :: second :: rest =>
    have hknown : ∀ w ∈ t.children p, t.label? w = some (t.labelAt w) :=
      fun w hw => label?_eq_some (mem_children_bounds hw).2
    have hfirst : first ∈ t.children p := by simp [hchildren]
    have hsecond : second ∈ t.children p := by simp [hchildren]
    have hne := h.labelAt_ne hchildren
    -- the first two labels are not both that of `c`
    by_cases hsame : t.label? first = t.label? c
    · refine ⟨second, by simp, ?_⟩
      intro hsame'
      rw [← hsame', hknown first hfirst, hknown second hsecond] at hsame
      exact hne (Option.some.inj hsame)
    · exact ⟨first, by simp, hsame⟩

/-- Below a level at which all nodes branch, every node has a peer. -/
theorem Regular.exists_peer (h : t.Regular) {e : Nat} (hpos : 1 ≤ e)
    (hbranch : ∀ q < t.size, (t.ancestors q).length + 1 = e → 2 ≤ (t.children q).length)
    (hn : n < t.size) (he : e ≤ (t.ancestors n).length) :
    ∃ w < t.size, (t.ancestors w).length = (t.ancestors n).length ∧ w ≠ n := by
  have hl := h.linked
  -- down from the root to the level that branches, and from there on with the peer of the parent
  induction n, hn using hl.node_induction with
  | root _ =>
    rw [ancestors_zero, List.length_nil] at he
    omega
  | child p n hp hchild ih =>
    rw [hl.depth_child hchild] at he ⊢
    by_cases heq : (t.ancestors p).length + 1 = e
    · -- the parent branches, so a sibling is a peer
      obtain ⟨w, hw, hlabel⟩ := h.exists_sibling hchild (hbranch p hp heq)
      refine ⟨w, (mem_children_bounds hw).2, hl.depth_child hw, ?_⟩
      rintro rfl
      exact hlabel rfl
    · -- the parent has a peer, which has a child too
      obtain ⟨q, hq, hdepth, hne⟩ := ih (by omega)
      obtain ⟨w, hw, hdepth', hwn⟩ := h.exists_cousin hchild hchild hq hdepth hne
      exact ⟨w, (mem_children_bounds hw).2, hdepth', hwn⟩

/-! ## Answers -/

/-- The search for synonyms of `n` has an answer, and this is the path of a node at depth `d` or
nearer to the root. -/
def AnswersByDepth (t : Tree) (rule : SynonymRule) (n d : Nat) : Prop :=
  ∃ answer, t.findSynonym? rule n = some answer ∧
    ∃ c, t.contains c ∧ (t.ancestors c).length ≤ d ∧ t.path? c = some answer

/-- The search ends at every synonym at the latest, and what it ends at is no deeper. -/
theorem Linked.answersByDepth (hl : t.Linked) (hn : t.contains n) (hw : t.IsSynonym rule n w) :
    t.AnswersByDepth rule n (t.ancestors w).length := by
  obtain ⟨first, hfirst, hbefore⟩ := hl.exists_firstSynonym? hn hw
  have hknown := (hl.firstSynonym?_eq_some_iff.1 hfirst).2.isSynonym.known
  have hpath := path?_eq_some (contains_iff.1 hknown)
  have hdepth : (t.ancestors first).length ≤ (t.ancestors w).length := by
    rcases hbefore with rfl | hless | ⟨heq, -⟩
    · exact Nat.le_refl _
    · omega
    · omega
  refine ⟨_, ?_, first, hknown, hdepth, hpath⟩
  rw [findSynonym?_eq_bind, hfirst]
  exact hpath

/-- A peer has the child labels of the reference, so the search ends at it at the latest unless the
rule leaves it out. -/
theorem Regular.answersByDepth_of_peer (h : t.Regular) (hn : n < t.size) (hw : w < t.size)
    (hdepth : (t.ancestors w).length = (t.ancestors n).length) (hkept : ¬ t.LeftOut rule n w) :
    t.AnswersByDepth rule n (t.ancestors n).length := by
  have hsynonym : t.IsSynonym rule n w := by
    refine ⟨contains_iff.2 hw, ?_, hkept⟩
    rw [h.childLabels_eq hw hn hdepth]
  rw [← hdepth]
  exact h.linked.answersByDepth (contains_iff.2 hn) hsynonym

/-! ## Chains -/

/-- In a tree that does not branch, of two nodes one is the other or above it. -/
theorem Linked.comparable_of_chain (hl : t.Linked)
    (hchain : ∀ q < t.size, (t.children q).length ≤ 1) (hn : n < t.size) (hc : c < t.size)
    (hdepth : (t.ancestors c).length ≤ (t.ancestors n).length) : c = n ∨ t.Below c n := by
  -- along the nodes as they hang below each other, with `c` anywhere at that depth or above
  induction n, hn using hl.node_induction generalizing c with
  | root _ =>
    rw [ancestors_zero, List.length_nil] at hdepth
    exact .inl (hl.eq_zero_of_depth hc (by omega))
  | child p n hp hchild ih =>
    rw [hl.depth_child hchild] at hdepth
    by_cases hnear : (t.ancestors c).length ≤ (t.ancestors p).length
    · exact .inr ((hl.below_child_iff hchild).2 (ih hc hnear))
    · -- as deep as `n`, its parent is as deep as that of `n`, which has one child
      obtain ⟨q, hchild'⟩ := hl.exists_parent (n := c) (by omega)
      have hq := mem_children_bounds hchild'
      rw [hl.depth_child hchild'] at hdepth hnear
      have hparents : q = p := by
        rcases ih (c := q) (by omega) (by omega) with hsame | hbelow
        · exact hsame
        · have := hl.depth_lt_of_below hbelow
          omega
      subst hparents
      exact .inl (List.eq_of_mem_of_length_le_one (hchain q hp) hchild' hchild)

/-- A search that leaves out the lineage finds nothing in a tree that does not branch. -/
theorem Linked.findSynonym?_of_chain (hl : t.Linked)
    (hchain : ∀ q < t.size, (t.children q).length ≤ 1) (n : Nat) :
    t.findSynonym? .distinctLineage n = none := by
  by_cases hn : t.contains n
  · rw [hl.findSynonym?_eq_none_iff hn]
    intro c hc
    have hn' := contains_iff.1 hn
    have hc' := contains_iff.1 hc.known
    -- the deeper of the two is the other one or below it, and either way it is left out
    rcases Nat.le_total (t.ancestors c).length (t.ancestors n).length with hle | hle
    · rcases hl.comparable_of_chain hchain hn' hc' hle with hsame | habove
      · exact hc.ne hsame
      · exact hc.kept (.inr (.inl habove))
    · rcases hl.comparable_of_chain hchain hc' hn' hle with hsame | hbelow
      · exact hc.ne hsame.symm
      · exact hc.kept (.inr (.inr hbelow))
  · rw [findSynonym?, if_neg hn]

/-! ## Expansions -/

/-- In an expansion a search from a node below the root has an answer, the path of a node that is no
deeper, under the rules that leave out the reference alone or its lineage if one of the levels down
to that node has two distinct tokens, and under the rule that leaves out equal labels if the node's
own level has.  Where every level has one token only, a search that leaves out the lineage never has
an answer. -/
theorem findSynonym?_expand {policy : Policy} {path : String} (h : policy.expand path = .ok t) :
    ∃ levels, parse policy.strict path = .ok levels ∧
      (∀ n d, t.contains n → (t.ancestors n).length = d → 1 ≤ d →
        ((∃ e, 1 ≤ e ∧ e ≤ d ∧ 2 ≤ (PathStructure.tokensAt levels e).toFinset.card) →
          t.AnswersByDepth .distinctNode n d ∧ t.AnswersByDepth .distinctLineage n d) ∧
        (2 ≤ (PathStructure.tokensAt levels d).toFinset.card → t.AnswersByDepth .distinctLabel n d)) ∧
      ((∀ level ∈ levels, level.tokens.toFinset.card = 1) →
        ∀ n, t.findSynonym? .distinctLineage n = none) := by
  have hregular := regular_expand h
  have hl := hregular.linked
  obtain ⟨levels, hparse, -⟩ := Policy.expand_eq_ok_iff.1 h
  have hlength : ∀ q < t.size, (t.children q).length =
      2 ^ (PathStructure.tokensAt levels ((t.ancestors q).length + 1)).toFinset.card - 1 :=
    fun q => length_children_expand h hparse
  -- two tokens make three combinations
  have hbranch : ∀ {e}, 2 ≤ (PathStructure.tokensAt levels e).toFinset.card → ∀ q < t.size,
      (t.ancestors q).length + 1 = e → 2 ≤ (t.children q).length := by
    intro e htwo q hq hdepth
    rw [hlength q hq, hdepth]
    have : 2 ^ 2 ≤ 2 ^ (PathStructure.tokensAt levels e).toFinset.card :=
      Nat.pow_le_pow_right (by decide) htwo
    omega
  refine ⟨levels, hparse, ?_, ?_⟩
  · intro n d hn hd hpos
    have hn' := contains_iff.1 hn
    subst hd
    constructor
    · intro ⟨e, he, hle, htwo⟩
      obtain ⟨w, hw, hdepth, hne⟩ := hregular.exists_peer he (hbranch htwo) hn' hle
      -- a peer is not of the lineage
      have hkept : ∀ {rule}, rule ≠ .distinctLabel → ¬ t.LeftOut rule n w := by
        intro rule hrule hleft
        rcases hl.eq_or_label?_eq_of_leftOut hdepth hleft with hsame | ⟨hlabel, -⟩
        · exact hne hsame
        · exact hrule hlabel
      exact ⟨hregular.answersByDepth_of_peer hn' hw hdepth (hkept nofun),
        hregular.answersByDepth_of_peer hn' hw hdepth (hkept nofun)⟩
    · intro htwo
      -- under this rule the peer has to be labelled differently, which a sibling is
      obtain ⟨p, hchild⟩ := hl.exists_parent hpos
      have hp := mem_children_bounds hchild
      obtain ⟨w, hw, hlabel⟩ :=
        hregular.exists_sibling hchild (hbranch htwo p (by omega) (hl.depth_child hchild).symm)
      refine hregular.answersByDepth_of_peer hn' (mem_children_bounds hw).2 ?_ hlabel
      rw [hl.depth_child hw, hl.depth_child hchild]
  · intro hone n
    apply hl.findSynonym?_of_chain
    intro q hq
    rw [hlength q hq, PathStructure.tokensAt]
    cases hlevel : levels[(t.ancestors q).length + 1]? with
    | none => simp
    | some level => simp [hone level (List.mem_of_getElem? hlevel)]

/-- The nodes of the last depth have one label.  Without the branching above it there is one of them
only. -/
theorem findSynonym?_expand_home :
    ∃ t u, Policy.expand {} "/home/a|b/c" = .ok t ∧ Policy.expand {} "/home/a/c" = .ok u ∧
      t.AnswersByDepth .distinctLabel 1 1 ∧ t.AnswersByDepth .distinctLineage 4 2 ∧
      ∀ n, u.findSynonym? .distinctLineage n = none := by
  have ht : Policy.expand {} "/home/a|b/c" =
      .ok (product "home" [["a", "b", "a-b"], ["c"]]) := by
    cbv
  have hu : Policy.expand {} "/home/a/c" = .ok (product "home" [["a"], ["c"]]) := by cbv
  refine ⟨_, _, ht, hu, ?_, ?_, ?_⟩
  · obtain ⟨levels, hparse, hwide, -⟩ := findSynonym?_expand ht
    have hread : parse false "/home/a|b/c" =
        .ok [⟨0, ["home"]⟩, ⟨1, ["a", "b"]⟩, ⟨2, ["c"]⟩] := by
      cbv
    obtain rfl := Except.ok.inj (hread.symm.trans hparse)
    exact (hwide 1 1 (by decide +kernel) (by decide +kernel) (by decide)).2 (by decide)
  · obtain ⟨levels, hparse, hwide, -⟩ := findSynonym?_expand ht
    have hread : parse false "/home/a|b/c" =
        .ok [⟨0, ["home"]⟩, ⟨1, ["a", "b"]⟩, ⟨2, ["c"]⟩] := by
      cbv
    obtain rfl := Except.ok.inj (hread.symm.trans hparse)
    exact ((hwide 4 2 (by decide +kernel) (by decide +kernel) (by decide)).1
      ⟨1, by decide, by decide, by decide⟩).2
  · obtain ⟨levels, hparse, -, hchain⟩ := findSynonym?_expand hu
    have hread : parse false "/home/a/c" = .ok [⟨0, ["home"]⟩, ⟨1, ["a"]⟩, ⟨2, ["c"]⟩] := by
      cbv
    obtain rfl := Except.ok.inj (hread.symm.trans hparse)
    exact hchain (by decide)

end ComboTree.Tree
