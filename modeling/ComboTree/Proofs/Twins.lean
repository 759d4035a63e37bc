import ComboTree.Operations
import ComboTree.Proofs.Lineage
import ComboTree.Proofs.Lookup

/-!
# Answers to a search are references themselves

A search for synonyms takes a path and answers with one.  With equal labels below one node several
nodes have one path, and the path leads to only one of them, so the node that a search found need
not be the one that its answer leads to.  In an expansion this does no harm.  The answer is not the
path that was asked for, and a search from it has an answer again: the node that was searched from
is a synonym of the node that the answer leads to.

The reason is that nodes of one depth have the same child labels there, and that the first two
children of a node have different labels.  A node that a look-up passes over then has a third node
to the left of it, at its depth.  The search meets this one earlier, so it does not end at a node
that is passed over, unless the rule leaves the third one out.

## Key results

- `regular_product`, `regular_expand`: expansions are regular
- `Regular.exists_to_the_left`: a node that is passed over is not the leftmost one that is
- `Regular.way_ne_of_isFirstSynonym`: a search finds no node with the path of the reference
- `Regular.isSynonym_of_walk?`: the reference is a synonym of what the answer leads to
- `Settings.synonym_of_synonym`: both, for a search from a path
-/

namespace ComboTree

namespace Tree

variable {t : Tree} {rule : SynonymRule} {m n c w p : Nat}

/-- The nodes of one depth have the same child labels, of which the first two differ. -/
structure Regular (t : Tree) : Prop where
  linked : t.Linked
  childLabels_eq : ∀ {m n}, m < t.size → n < t.size →
    (t.ancestors m).length = (t.ancestors n).length → t.childLabels m = t.childLabels n
  labels_ne : ∀ {n a b rest}, t.childLabels n = a :: b :: rest → a ≠ b

/-- A product is regular, if its choices start with two different labels where there are two. -/
theorem regular_product (root : String) {choices : List (List String)}
    (h : ∀ choice ∈ choices, ∀ a b rest, choice = a :: b :: rest → a ≠ b) :
    (product root choices).Regular := by
  have hl := linked_product root choices
  constructor
  case linked => exact hl
  case childLabels_eq =>
    intro m n hm hn hdepth
    exact hl.childLabels_eq_of_depth_eq (labelled_product root choices) hm hn hdepth
  case labels_ne =>
    intro n a b rest hlabels
    rcases childLabels_product root choices n with hnil | hmem
    · rw [hnil] at hlabels
      cases hlabels
    · exact h _ hmem a b rest hlabels

/-- Every expansion is regular, with whatever labels siblings share. -/
theorem regular_expand {policy : Policy} {path : String} (h : policy.expand path = .ok t) :
    t.Regular := by
  obtain ⟨root, label, below, -, -, rfl, -⟩ := exists_product_of_expand h
  apply regular_product
  intro choice hchoice a b rest hlabels
  obtain ⟨level, -, rfl⟩ := List.mem_map.1 hchoice
  exact String.ne_of_lt (combinationLabels_start hlabels)

/-! ## Nodes that are passed over -/

/-- The first child is never passed over. -/
theorem findChild?_labelAt_first {first : Nat} {rest : List Nat}
    (hchildren : t.children n = first :: rest) :
    t.findChild? n (t.labelAt first) = some first := by
  have hmem : first ∈ t.children n := hchildren ▸ List.mem_cons_self
  have hlabel := label?_eq_some (mem_children_bounds hmem).2
  rw [findChild?, hchildren, List.find?_cons_of_pos]
  simpa using hlabel

/-- The first two children of a node have different labels. -/
theorem Regular.labelAt_ne (h : t.Regular) {first second : Nat} {rest : List Nat}
    (hchildren : t.children n = first :: second :: rest) :
    t.labelAt first ≠ t.labelAt second := by
  have hlabels := t.childLabels_eq_map n
  rw [hchildren, List.map_cons, List.map_cons] at hlabels
  exact h.labels_ne hlabels

/-- A node as deep as one with children has children. -/
theorem Regular.children_ne_nil (h : t.Regular) (hc : c ∈ t.children p) (hn : n < t.size)
    (hdepth : (t.ancestors n).length = (t.ancestors p).length) : t.children n ≠ [] := by
  intro hnil
  have hbounds := mem_children_bounds hc
  have hlabel : t.labelAt c ∈ t.childLabels n := by
    rw [h.childLabels_eq hn (by omega) hdepth]
    exact List.mem_filterMap.2 ⟨c, hc, label?_eq_some hbounds.2⟩
  rw [childLabels, hnil] at hlabel
  exact absurd hlabel List.not_mem_nil

/-- As deep as a node with children, and not the parent of `m`, a node has a child other than `m`. -/
theorem Regular.exists_cousin (h : t.Regular) {q v : Nat} (hc : c ∈ t.children p)
    (hm : m ∈ t.children q) (hv : v < t.size)
    (hdepth : (t.ancestors v).length = (t.ancestors p).length) (hne : v ≠ q) :
    ∃ w ∈ t.children v, (t.ancestors w).length = (t.ancestors p).length + 1 ∧ w ≠ m := by
  have hl := h.linked
  obtain ⟨w, hw⟩ := List.exists_mem_of_ne_nil _ (h.children_ne_nil hc hv hdepth)
  refine ⟨w, hw, ?_, ?_⟩
  · rw [hl.depth_child hw, hdepth]
  · rintro rfl
    have hparent := hl.mem_children_iff.1 hw
    rw [hl.mem_children_iff.1 hm] at hparent
    exact hne (Option.some.inj hparent).symm

/-- Where a child is passed over for one with the same label, there is a child to the left of it
that is not the one taken: the first child, or the second if the first is taken. -/
theorem Regular.exists_child_to_the_left (h : t.Regular) (hc : c ∈ t.children p)
    (hm : t.findChild? p (t.labelAt c) = some m) (hne : c ≠ m) :
    ∃ w ∈ t.children p, w ≠ m ∧ t.position w < t.position c := by
  obtain ⟨-, hlabel⟩ := findChild?_eq_some hm
  have hsame : t.labelAt m = t.labelAt c := by
    rw [labelAt, hlabel]
    rfl
  have hsorted := h.linked.pairwise_children p
  cases hchildren : t.children p with
  | nil =>
    rw [hchildren] at hc
    exact absurd hc List.not_mem_nil
  | cons first rest =>
    rw [hchildren] at hc hsorted
    obtain ⟨hfirst, hrest⟩ := List.pairwise_cons.1 hsorted
    -- the first child would be taken
    have hc_first : c ≠ first := by
      rintro rfl
      rw [findChild?_labelAt_first hchildren] at hm
      exact hne (Option.some.inj hm)
    have hc : c ∈ rest := (List.mem_cons.1 hc).resolve_left hc_first
    -- if the first child is the one taken, then `c` is not the second either, whose label differs
    by_cases htaken : first = m
    · cases rest with
      | nil => exact absurd hc List.not_mem_nil
      | cons second rest =>
        have hlabels := h.labelAt_ne hchildren
        have hc_second : c ≠ second := by
          rintro rfl
          rw [htaken, hsame] at hlabels
          exact hlabels rfl
        have hc : c ∈ rest := (List.mem_cons.1 hc).resolve_left hc_second
        refine ⟨second, by simp, ?_, (List.pairwise_cons.1 hrest).1 c hc⟩
        rintro rfl
        exact hlabels (congrArg t.labelAt htaken)
    · exact ⟨first, by simp, htaken, hfirst c hc⟩

/-- A node that a look-up passes over has another node to the left of it, at the same depth, that
the look-up does not end at either. -/
theorem Regular.exists_to_the_left (h : t.Regular) (hc : c < t.size)
    (hm : t.walk? (t.way c) = some m) (hne : c ≠ m) :
    ∃ w < t.size, (t.ancestors w).length = (t.ancestors c).length ∧ w ≠ m ∧
      t.position w < t.position c := by
  have hl := h.linked
  -- down from the root: a node is passed over at its own parent, or its parent is passed over
  induction c, hc using hl.node_induction generalizing m with
  | root _ =>
    rw [way_eq_singleton parent?_zero] at hm
    obtain ⟨-, -, hroot⟩ := walk?_cons_eq_some_iff.1 hm
    exact absurd (Option.some.inj hroot) hne
  | child p c _ hchild ih =>
    rw [way_eq_concat (hl.mem_children_iff.1 hchild), walk?_concat (way_ne_nil t p)] at hm
    obtain ⟨q, hq, hm⟩ := Option.bind_eq_some_iff.1 hm
    rw [hl.depth_child hchild]
    by_cases hparents : p = q
    · -- the look-up goes through the parent and takes another of its children
      subst hparents
      obtain ⟨w, hw, hwm, hposition⟩ := h.exists_child_to_the_left hchild hm hne
      exact ⟨w, (mem_children_bounds hw).2, hl.depth_child hw, hwm, hposition⟩
    · -- the parent is passed over too, and the node to the left of it has children as well
      obtain ⟨v, hv, hdepth, hvq, hposition⟩ := ih hq hparents
      obtain ⟨w, hw, hdepth', hwm⟩ := h.exists_cousin hchild (findChild?_eq_some hm).1 hv hdepth hvq
      exact ⟨w, (mem_children_bounds hw).2, hdepth', hwm,
        hl.position_lt_of_parents hdepth hposition hw hchild⟩

/-! ## First synonyms -/

/-- Every rule leaves out the reference itself. -/
theorem leftOut_self (t : Tree) (rule : SynonymRule) (n : Nat) : t.LeftOut rule n n := by
  cases rule with
  | distinctLabel => exact rfl
  | distinctNode => exact rfl
  | distinctLineage => exact .inl rfl

/-- At the depth of the reference only the reference and nodes labelled like it are left out. -/
theorem Linked.eq_or_label?_eq_of_leftOut (hl : t.Linked)
    (hdepth : (t.ancestors w).length = (t.ancestors n).length) (h : t.LeftOut rule n w) :
    w = n ∨ rule = .distinctLabel ∧ t.label? w = t.label? n := by
  -- the lineage has no other node at the depth of the reference
  cases rule with
  | distinctLabel => exact .inr ⟨rfl, h⟩
  | distinctNode => exact .inl h
  | distinctLineage =>
    rcases h with rfl | h | h
    · exact .inl rfl
    · have := hl.depth_lt_of_below h
      omega
    · have := hl.depth_lt_of_below h
      omega

/-- Nothing that comes before the first synonym is one. -/
theorem IsFirstSynonym.not_before (hc : t.IsFirstSynonym rule n c) (hw : t.IsSynonym rule n w) :
    ¬ t.Before w c := by
  intro hbefore
  by_cases hsame : w = c
  · subst hsame
    exact hbefore.asymm hbefore
  · exact hbefore.asymm (hc.before w hw hsame)

/-- At its depth the rule leaves out what is to the left of the first synonym. -/
theorem Regular.leftOut_of_position_lt (h : t.Regular) (hc : t.IsFirstSynonym rule n c)
    (hw : w < t.size) (hdepth : (t.ancestors w).length = (t.ancestors c).length)
    (hposition : t.position w < t.position c) : t.LeftOut rule n w := by
  by_contra hkept
  have hknown := contains_iff.1 hc.isSynonym.known
  have hsynonym : t.IsSynonym rule n w := by
    refine ⟨contains_iff.2 hw, ?_, hkept⟩
    rw [h.childLabels_eq hw hknown hdepth]
    exact hc.isSynonym.same_children
  exact hc.not_before hsynonym (.inr ⟨hdepth, hposition⟩)

/-- A search from where a look-up ends does not find a node with the path looked up. -/
theorem Regular.way_ne_of_isFirstSynonym (h : t.Regular) (hn : t.walk? (t.way n) = some n)
    (hc : t.IsFirstSynonym rule n c) : t.way c ≠ t.way n := by
  intro hway
  have hknown := contains_iff.1 hc.isSynonym.known
  have hn' := (h.linked.way_of_walk? hn).1
  have hdepth := depth_eq_of_way_eq hway
  have hne : c ≠ n := by
    rintro rfl
    exact hc.isSynonym.kept (leftOut_self t rule c)
  -- the look-up passes over `c`, so a node to the left of it is not the reference
  obtain ⟨w, hw, hdepth', hwn, hposition⟩ := h.exists_to_the_left hknown (hway ▸ hn) hne
  have hleft := h.leftOut_of_position_lt hc hw hdepth' hposition
  rcases h.linked.eq_or_label?_eq_of_leftOut (hdepth'.trans hdepth) hleft with hsame | ⟨rfl, -⟩
  · exact hwn hsame
  · -- this rule leaves `c` out, which is labelled like the reference
    exact hc.isSynonym.kept (label?_eq_of_way_eq hknown hn' hway)

/-- What the answer leads to is not below the reference: else a node above the first synonym has
the path of the reference, and comes first. -/
theorem Regular.not_below_of_walk? (h : t.Regular) (hn : t.walk? (t.way n) = some n)
    (hc : t.IsFirstSynonym .distinctLineage n c) (hm : t.walk? (t.way c) = some m) :
    ¬ t.Below n m := by
  intro hbelow
  have hl := h.linked
  have hn' := (hl.way_of_walk? hn).1
  have hprefix := hl.way_prefix_of_below hbelow
  rw [(hl.way_of_walk? hm).2] at hprefix
  obtain ⟨a, ha, hway⟩ := hl.exists_below_of_prefix (way_ne_nil t n) hprefix
    (h.way_ne_of_isFirstSynonym hn hc).symm
  have hdepth := depth_eq_of_way_eq hway
  -- `a` has the path of the reference, so it has its depth and its child labels too
  have hsynonym : t.IsSynonym .distinctLineage n a := by
    refine ⟨contains_iff.2 ha.lt_size, ?_, ?_⟩
    · rw [h.childLabels_eq ha.lt_size hn' hdepth]
    · intro hleft
      rcases hl.eq_or_label?_eq_of_leftOut hdepth hleft with rfl | ⟨hrule, -⟩
      · exact hc.isSynonym.kept (.inr (.inr ha))
      · exact nomatch hrule
  exact hc.not_before hsynonym (.inl (hl.depth_lt_of_below ha))

/-- Nor is it above the reference: else the search would have met another node at its depth. -/
theorem Regular.not_above_of_walk? (h : t.Regular) (hc : t.IsFirstSynonym .distinctLineage n c)
    (hm : t.walk? (t.way c) = some m) : ¬ t.Below m n := by
  intro habove
  have hl := h.linked
  by_cases hcm : c = m
  · subst hcm
    exact hc.isSynonym.kept (.inr (.inl habove))
  · have hknown := contains_iff.1 hc.isSynonym.known
    have hdepth := depth_eq_of_way_eq (hl.way_of_walk? hm).2
    have hnearer := hl.depth_lt_of_below habove
    obtain ⟨w, hw, hdepth', hwm, hposition⟩ := h.exists_to_the_left hknown hm hcm
    rcases h.leftOut_of_position_lt hc hw hdepth' hposition with rfl | hbelow | hbelow
    · omega
    · -- of the nodes above the reference only one is as deep as this one
      exact hwm (hl.eq_of_below_of_depth_eq hbelow habove (by omega))
    · have := hl.depth_lt_of_below hbelow
      omega

/-- The reference is a synonym of the node that the answer leads to. -/
theorem Regular.isSynonym_of_walk? (h : t.Regular) (hn : t.walk? (t.way n) = some n)
    (hc : t.IsFirstSynonym rule n c) (hm : t.walk? (t.way c) = some m) :
    t.IsSynonym rule m n := by
  have hknown := contains_iff.1 hc.isSynonym.known
  have hn' := (h.linked.way_of_walk? hn).1
  obtain ⟨hm', hway⟩ := h.linked.way_of_walk? hm
  have hne : n ≠ m := by
    rintro rfl
    exact h.way_ne_of_isFirstSynonym hn hc hway.symm
  constructor
  case known => exact contains_iff.2 hn'
  case same_children =>
    rw [h.childLabels_eq hm' hknown (depth_eq_of_way_eq hway)]
    exact hc.isSynonym.same_children.symm
  case kept =>
    intro hleft
    -- rule by rule: what would leave out the reference would have left out the answer
    cases rule with
    | distinctLabel =>
      have hlabel := label?_eq_of_way_eq hm' hknown hway
      exact hc.isSynonym.kept (hlabel.symm.trans hleft.symm)
    | distinctNode => exact hne hleft
    | distinctLineage =>
      rcases hleft with hsame | hbelow | hbelow
      · exact hne hsame
      · exact h.not_below_of_walk? hn hc hm hbelow
      · exact h.not_above_of_walk? hc hm hbelow

end Tree

/-! ## Searches from paths -/

/-- A search from a path has an answer when the path expands and the reference leads to a node. -/
theorem Settings.synonym_eq_ok_iff {s : Settings} {path reference : String}
    {answer : Option String} : s.synonym path reference = .ok answer ↔ ∃ t n,
      s.policy.expand path = .ok t ∧ t.nodeAtPath? reference = some n ∧
      t.findSynonym? s.synonymRule n = answer := by
  rw [Settings.synonym, Except.bind_eq_ok_iff]
  constructor
  · rintro ⟨t, ht, hanswer⟩
    rw [Tree.findSynonymByPath] at hanswer
    split at hanswer
    · rename_i n hn
      exact ⟨t, n, ht, hn, Except.ok.inj hanswer⟩
    · cases hanswer
  · rintro ⟨t, n, ht, hn, hanswer⟩
    refine ⟨t, ht, ?_⟩
    rw [Tree.findSynonymByPath, hn]
    exact congrArg Except.ok hanswer

/-- Where a search from a path has an answer, with whatever rule and labels, the answer is another
path, and a search from it, with the same settings, has an answer too. -/
theorem Settings.synonym_of_synonym {s : Settings} {path reference answer : String}
    (h : s.synonym path reference = .ok (some answer)) :
    answer ≠ reference ∧ ∃ back, s.synonym path answer = .ok (some back) := by
  obtain ⟨t, n, ht, hn, hanswer⟩ := Settings.synonym_eq_ok_iff.1 h
  have hregular := Tree.regular_expand ht
  have hnav := Tree.navigable_expand ht
  have hl := hregular.linked
  obtain ⟨labels, hsegmented, hwalk⟩ := Tree.nodeAtPath?_eq_some_iff.1 hn
  obtain ⟨hn', rfl⟩ := hl.way_of_walk? hwalk
  rw [Tree.findSynonym?_of_contains (Tree.contains_iff.2 hn')] at hanswer
  obtain ⟨c, hc, hpath⟩ := Option.bind_eq_some_iff.1 hanswer
  have hfirst := hl.find?_eq_some_iff_isFirstSynonym.1 hc
  have hknown := Tree.contains_iff.1 hfirst.isSynonym.known
  rw [Tree.path?_eq_way hknown] at hpath
  obtain rfl := Option.some.inj hpath
  constructor
  · intro hsame
    -- a path is cut in one way
    have hway := (hsame ▸ hnav.segmented_way hknown).unique hsegmented
    exact hregular.way_ne_of_isFirstSynonym hwalk hfirst hway
  · -- the answer leads to some node, and of that the reference is a synonym
    obtain ⟨m, hm⟩ := hnav.found c hknown
    have hback := hregular.isSynonym_of_walk? hwalk hfirst hm
    have hm' := (hl.way_of_walk? hm).1
    cases hfound : t.findSynonym? s.synonymRule m with
    | none =>
      have hnone := (hl.findSynonym?_eq_none_iff (Tree.contains_iff.2 hm')).1 hfound
      exact absurd hback (hnone n)
    | some back =>
      exact ⟨back, Settings.synonym_eq_ok_iff.2
        ⟨t, m, ht, (hnav.nodeAtPath?_eq hknown).trans hm, hfound⟩⟩

/-- Two nodes have the label `a-b`, and with it the path that is the answer. -/
theorem Settings.synonym_of_synonym_twins :
    Settings.synonym {} "/home/a|b|a-b" "/home/a" = .ok (some "/home/a-b") ∧
    ∃ back, Settings.synonym {} "/home/a|b|a-b" "/home/a-b" = .ok (some back) := by
  have ht : Policy.expand {} "/home/a|b|a-b" = .ok
      (Tree.product "home" [["a", "a-b", "b", "a-a-b", "a-b", "a-b-b", "a-a-b-b"]]) := by
    cbv
  have hn : (Tree.product "home" [["a", "a-b", "b", "a-a-b", "a-b", "a-b-b", "a-a-b-b"]]).nodeAtPath?
      "/home/a" = some 1 := by
    cbv
  have hknown : (Tree.product "home"
      [["a", "a-b", "b", "a-a-b", "a-b", "a-b-b", "a-a-b-b"]]).contains 1 := by
    decide +kernel
  -- the nodes come in the order of their handles, and the third one is a synonym
  have hfound : (List.range 8).find? ((Tree.product "home"
      [["a", "a-b", "b", "a-a-b", "a-b", "a-b-b", "a-a-b-b"]]).passes .distinctLabel 1) =
      some 2 := by
    decide +kernel
  have hway : (Tree.product "home" [["a", "a-b", "b", "a-a-b", "a-b", "a-b-b", "a-a-b-b"]]).way 2 =
      ["home", "a-b"] := by
    cbv
  have hanswer : (Tree.product "home"
      [["a", "a-b", "b", "a-a-b", "a-b", "a-b-b", "a-a-b-b"]]).findSynonym? .distinctLabel 1 =
      some "/home/a-b" := by
    rw [Tree.findSynonym?_of_contains hknown, Tree.breadthFirst_product]
    show ((List.range 8).find? _).bind _ = _
    rw [hfound, Option.bind_some, Tree.path?_eq_way (by decide +kernel), hway]
    rfl
  have h : Settings.synonym {} "/home/a|b|a-b" "/home/a" = .ok (some "/home/a-b") :=
    Settings.synonym_eq_ok_iff.2 ⟨_, 1, ht, hn, hanswer⟩
  exact ⟨h, (Settings.synonym_of_synonym h).2⟩

end ComboTree
