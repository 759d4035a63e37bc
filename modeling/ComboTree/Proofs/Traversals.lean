import ComboTree.Proofs.BreadthFirst
import ComboTree.Proofs.Validation
import ComboTree.Synonym

/-!
# Four walks over one tree

A tree is walked in four ways: with a stack, from which the next node is taken and on which its
children are put in its place; by a loop over frontiers, each gathered from the one before; by a
recursion that only keeps the greatest depth; and upwards, along parent links.  They are written
here step by step, and each is shown to be one of the traversals of the ordered tree that the links
describe.  So they meet the same nodes.

## Key results

- `pending_of_next?`, `iteratedFrom_eq_pending`: what is at and below the handles on the stack is
  still to come, in pre-order
- `frontiers_eq_levelsFrom`, `searchFrom_eq_find?`: the loop by levels, and the search that leaves it
- `depthBelow_eq_height`: the recursion
- `Linked.descent_iff`, `Linked.isGreatest_depth`: the chains from the root are the ways up, reversed
- `traversalsAgree_of_reachable`: how the walks agree
-/

namespace ComboTree.Tree

variable {t : Tree} {n : Nat} {p : Nat → Bool}

/-! ## The stack -/

/-- One step of the iterator: the node on top gives way to its children, the last of them pushed
first.  A handle of no node ends the iteration. -/
def next? (t : Tree) : List Nat → Option (Nat × List Nat)
  | [] => none
  | n :: stack =>
    if t.contains n then
      some (n, (t.children n).reverse.foldl (fun stack c => c :: stack) stack)
    else
      none

/-- The nodes at and below those on the stack, the top's first. -/
def pending (t : Tree) (stack : List Nat) : List Nat :=
  stack.flatMap fun n => (t.subtree n).preorder

/-- The step: a node is handed out, and what was pending behind it still is. -/
theorem pending_of_next? {stack rest : List Nat} (h : t.next? stack = some (n, rest)) :
    t.pending stack = n :: t.pending rest ∧
      ((∀ m ∈ stack, t.contains m) → ∀ m ∈ rest, t.contains m) := by
  cases stack with
  | nil => exact nomatch h
  | cons m stack =>
    rw [next?] at h
    split at h
    · obtain ⟨rfl, rfl⟩ := Prod.mk.inj (Option.some.inj h)
      -- pushed from the last one on, the children lie on the stack in their order
      rw [List.foldl_flip_cons_eq_append, List.map_id', List.reverse_reverse]
      constructor
      · rw [pending, pending, List.flatMap_cons, List.flatMap_append, subtree_eq,
          Rose.preorder_node, List.flatMap_map, List.cons_append]
      · intro hstack c hc
        rcases List.mem_append.1 hc with hc | hc
        · exact contains_iff.2 (mem_children_bounds hc).2
        · exact hstack c (List.mem_cons_of_mem _ hc)
    · exact nomatch h

/-- The nodes that the iterator hands out before it ends. -/
def iteratedFrom (t : Tree) (stack : List Nat) : List Nat :=
  match hnext : t.next? stack with
  | none => []
  | some (n, rest) =>
    have := (pending_of_next? hnext).1
    n :: t.iteratedFrom rest
termination_by (t.pending stack).length
decreasing_by simp [this]

/-- The run: with handles of nodes on the stack, all that is pending is handed out. -/
theorem iteratedFrom_eq_pending {stack : List Nat} (h : ∀ n ∈ stack, t.contains n) :
    t.iteratedFrom stack = t.pending stack := by
  fun_induction iteratedFrom t stack with
  | case1 stack hnext =>
    cases stack with
    | nil => rfl
    | cons n stack =>
      -- the iteration does not end at a node of the tree
      rw [next?, if_pos (h n List.mem_cons_self)] at hnext
      exact nomatch hnext
  | case2 stack n rest hnext hpending ih =>
    rw [hpending, ih ((pending_of_next? hnext).2 h)]

/-- From one node the iterator goes through what is at and below it. -/
theorem iteratedFrom_singleton (hn : t.contains n) :
    t.iteratedFrom [n] = (t.subtree n).preorder := by
  rw [iteratedFrom_eq_pending (List.forall_mem_singleton.2 hn), pending, List.flatMap_singleton]

/-- The nodes that are iterated over, starting with the root alone on the stack. -/
def iterated (t : Tree) : List Nat := t.iteratedFrom t.root?.toList

/-- The iterator goes through the tree in pre-order. -/
theorem iterated_eq_preorder (t : Tree) : t.iterated = t.preorder := by
  rw [iterated, preorder, skeleton?]
  cases hroot : t.root? with
  | none => exact iteratedFrom_eq_pending (List.forall_mem_nil _)
  | some root => exact iteratedFrom_singleton (root?_eq_some_iff.1 hroot).2

/-- The walk goes through a node and then through what is below its children, one after the other. -/
theorem iteratedFrom_eq_cons (hn : t.contains n) :
    t.iteratedFrom [n] = n :: (t.children n).flatMap fun c => t.iteratedFrom [c] := by
  -- every child is a node of the tree, so the walk from it does not end at once
  have hchildren : ∀ c ∈ t.children n, t.iteratedFrom [c] = (t.subtree c).preorder :=
    fun c hc => iteratedFrom_singleton (contains_iff.2 (mem_children_bounds hc).2)
  rw [iteratedFrom_singleton hn, subtree_eq, Rose.preorder_node, List.flatMap_map,
    List.flatMap_congr hchildren]

/-! ## The loop by levels -/

/-- The children of a frontier, gathered node by node. -/
def gathered (t : Tree) (frontier : List Nat) : List Nat :=
  frontier.foldl (fun next n => next ++ t.children n) []

/-- The children of a frontier are gathered in the order of the frontier. -/
theorem gathered_eq (t : Tree) (frontier : List Nat) :
    t.gathered frontier = frontier.flatMap t.children :=
  List.flatMap_eq_foldl.symm

/-- The loop ends, since after a frontier there is one level less. -/
theorem length_levelsFrom_lt {frontier : List Nat} (hne : frontier ≠ []) :
    (t.levelsFrom (frontier.flatMap t.children)).length < (t.levelsFrom frontier).length := by
  rw [levelsFrom_eq_cons hne]
  exact Nat.lt_succ_self _

/-- The frontiers of the loop, each gathered from the one before. -/
def frontiers (t : Tree) (frontier : List Nat) : List (List Nat) :=
  if hend : frontier = [] then []
  else
    have := length_levelsFrom_lt (t := t) hend
    frontier :: t.frontiers (t.gathered frontier)
termination_by (t.levelsFrom frontier).length
decreasing_by rwa [gathered_eq]

/-- The frontiers of the loop are the levels. -/
theorem frontiers_eq_levelsFrom (t : Tree) (frontier : List Nat) :
    t.frontiers frontier = t.levelsFrom frontier := by
  induction frontier using t.frontier_induction with
  | nil =>
    rw [frontiers, dif_pos rfl]
    rfl
  | step frontier hne ih => rw [levelsFrom_eq_cons hne, frontiers, dif_neg hne, gathered_eq, ih]

/-- One pass of a search over a frontier: it ends at the first node that passes, or with the children
of all of them gathered behind `next`. -/
def searchPass (t : Tree) (p : Nat → Bool) : List Nat → List Nat → Except Nat (List Nat)
  | [], next => .ok next
  | n :: frontier, next =>
    if p n then .error n else t.searchPass p frontier (next ++ t.children n)

/-- A pass stops at the first node that passes; otherwise all children have been gathered. -/
theorem searchPass_eq (t : Tree) (p : Nat → Bool) (frontier next : List Nat) :
    t.searchPass p frontier next =
      match frontier.find? p with
      | some n => .error n
      | none => .ok (next ++ frontier.flatMap t.children) := by
  induction frontier generalizing next with
  | nil => simp [searchPass]
  -- the children of a node that does not pass go behind those gathered so far
  | cons n frontier ih =>
    rw [searchPass, List.find?_cons]
    cases p n with
    | true => rfl
    | false => simp [ih]

/-- The passes that find a node. -/
theorem searchPass_eq_error_iff {frontier next : List Nat} :
    t.searchPass p frontier next = .error n ↔ frontier.find? p = some n := by
  rw [searchPass_eq]
  cases frontier.find? p <;> simp

/-- The passes that find none, and what they hand to the next. -/
theorem searchPass_eq_ok_iff {frontier next next' : List Nat} :
    t.searchPass p frontier next = .ok next' ↔
      frontier.find? p = none ∧ next ++ frontier.flatMap t.children = next' := by
  rw [searchPass_eq]
  cases frontier.find? p <;> simp

/-- The search: pass after pass, up to the first node that passes or the first empty frontier. -/
def searchFrom (t : Tree) (p : Nat → Bool) (frontier : List Nat) : Option Nat :=
  if hend : frontier = [] then none
  else
    match hpass : t.searchPass p frontier [] with
    | .error n => some n
    | .ok next =>
      have := length_levelsFrom_lt (t := t) hend
      have := (searchPass_eq_ok_iff.1 hpass).2
      t.searchFrom p next
termination_by (t.levelsFrom frontier).length
decreasing_by simp_all

/-- One round of the search. -/
theorem searchFrom_of_ne_nil {frontier : List Nat} (hne : frontier ≠ []) (p : Nat → Bool) :
    t.searchFrom p frontier =
      (frontier.find? p).or (t.searchFrom p (frontier.flatMap t.children)) := by
  rw [searchFrom, dif_neg hne]
  -- the pass has found a node, or the next one starts with the children
  split
  · rename_i n hpass
    rw [searchPass_eq_error_iff.1 hpass, Option.some_or]
  · rename_i next hpass
    obtain ⟨hfind, rfl⟩ := searchPass_eq_ok_iff.1 hpass
    rw [hfind, Option.none_or]
    rfl

/-- Searching by levels finds the first node on the levels that passes. -/
theorem searchFrom_eq_find? (t : Tree) (p : Nat → Bool) (frontier : List Nat) :
    t.searchFrom p frontier = (t.frontiers frontier).flatten.find? p := by
  rw [frontiers_eq_levelsFrom]
  induction frontier using t.frontier_induction with
  | nil =>
    rw [searchFrom, dif_pos rfl]
    rfl
  | step frontier hne ih =>
    rw [searchFrom_of_ne_nil hne, ih, levelsFrom_eq_cons hne, List.flatten_cons, List.find?_append]

/-! ## The recursion -/

/-- The number of nodes on a longest way down from `n`; zero for a handle of no node. -/
def depthBelow (t : Tree) (n : Nat) : Nat :=
  if t.contains n then
    1 + ((t.children n).attach.map fun c => t.depthBelow c.1).max?.getD 0
  else
    0
termination_by t.size - n
decreasing_by
  have := mem_children_bounds c.2
  omega

/-- The recursion gives the height of what is below the node. -/
theorem depthBelow_eq_height (hn : t.contains n) : t.depthBelow n = (t.subtree n).height := by
  induction n using t.descending_induction with
  | node n ih =>
    -- the children are known, so the recursion does not give zero for them
    have hchildren : ∀ c ∈ t.children n, t.depthBelow c = (t.subtree c).height :=
      fun c hc => ih c hc (contains_iff.2 (mem_children_bounds hc).2)
    rw [depthBelow, if_pos hn, List.attach_map_val (f := t.depthBelow), subtree_eq,
      Rose.height_node, List.map_map, List.getD_max?_eq_foldr, List.map_congr_left hchildren]
    rfl

/-! ## Chains of links -/

/-- A chain of nodes from the root down to `n`, each a child of the one before. -/
structure Descent (t : Tree) (chain : List Nat) (n : Nat) : Prop where
  head?_eq : chain.head? = t.root?
  getLast?_eq : chain.getLast? = some n
  links : chain.IsChain fun p c => c ∈ t.children p

/-- A chain has a node, that at its end. -/
theorem Descent.ne_nil {chain : List Nat} (h : t.Descent chain n) : chain ≠ [] := by
  rintro rfl
  exact nomatch h.getLast?_eq

/-- One link more. -/
theorem Descent.concat {chain : List Nat} (h : t.Descent chain n) {c : Nat}
    (hc : c ∈ t.children n) : t.Descent (chain ++ [c]) c where
  head?_eq := by
    rw [List.head?_append_of_ne_nil _ h.ne_nil, h.head?_eq]
  getLast?_eq := List.getLast?_concat ..
  links := by
    -- the last node of the chain is the parent of the new one
    refine List.isChain_append.2 ⟨h.links, List.isChain_singleton c, fun m hm d hd => ?_⟩
    rw [h.getLast?_eq, Option.mem_some_iff] at hm
    obtain rfl := Option.some.inj hd
    rwa [← hm]

/-- A chain that ends at a node is the way down to it. -/
theorem Linked.lineage_of_descent (hl : t.Linked) {chain : List Nat} (h : t.Descent chain n) :
    t.contains n ∧ t.lineage n = chain := by
  -- the parent of a node is where the chain to it comes from, so links are taken off its end
  induction chain using List.reverseRecOn generalizing n with
  | nil => exact absurd rfl h.ne_nil
  | append_singleton chain m ih =>
    obtain ⟨hhead, hlast, hlinks⟩ := h
    rw [List.getLast?_concat, Option.some.injEq] at hlast
    subst hlast
    obtain ⟨hlinks, -, hlink⟩ := List.isChain_append.1 hlinks
    -- a chain of one node is the root; any other goes on from the parent of its last node
    cases hp : chain.getLast? with
    | none =>
      obtain rfl := List.getLast?_eq_none_iff.1 hp
      obtain ⟨rfl, hn⟩ := root?_eq_some_iff.1 hhead.symm
      exact ⟨hn, lineage_eq_singleton parent?_zero⟩
    | some p =>
      have hne : chain ≠ [] := by
        rintro rfl
        exact nomatch hp
      rw [List.head?_append_of_ne_nil _ hne] at hhead
      have hc : m ∈ t.children p := hlink p hp m rfl
      obtain ⟨-, hlineage⟩ := ih ⟨hhead, hp, hlinks⟩
      rw [lineage_eq_concat (hl.mem_children_iff.1 hc), hlineage]
      exact ⟨contains_iff.2 (mem_children_bounds hc).2, rfl⟩

/-- The way down to a node is a chain. -/
theorem Linked.descent_lineage (hl : t.Linked) (hn : t.contains n) :
    t.Descent (t.lineage n) n := by
  rw [contains_iff] at hn
  -- along the order of insertion: the way to a child is that to its parent and one link
  induction n, hn using hl.node_induction with
  | root hpos =>
    rw [lineage_eq_singleton parent?_zero]
    exact ⟨(root?_eq_some_iff.2 ⟨rfl, contains_iff.2 hpos⟩).symm, rfl, List.isChain_singleton 0⟩
  | child p c _ hc ih =>
    rw [lineage_eq_concat (hl.mem_children_iff.1 hc)]
    exact ih.concat hc

/-- Where links agree, the one chain to a node is read off its parent links. -/
theorem Linked.descent_iff (hl : t.Linked) {chain : List Nat} :
    t.Descent chain n ↔ t.contains n ∧ t.lineage n = chain := by
  constructor
  · exact hl.lineage_of_descent
  · rintro ⟨hn, rfl⟩
    exact hl.descent_lineage hn

/-! ## The greatest depth -/

/-- No node is farther from the root than the tree is deep. -/
theorem Linked.length_lineage_le_depth (hl : t.Linked) (hn : t.contains n) :
    (t.lineage n).length ≤ t.depth := by
  have hmem : n ∈ t.levels.getD (t.ancestors n).length [] :=
    hl.mem_getD_levels_iff.2 ⟨contains_iff.1 hn, rfl⟩
  rw [← length_levels, lineage, List.length_reverse, List.length_cons, Nat.succ_le_iff]
  -- the level of `n` is not empty, so it is one of the levels
  by_contra hlt
  rw [List.getD_eq_default _ _ (Nat.not_lt.1 hlt)] at hmem
  exact absurd hmem List.not_mem_nil

/-- Some node is as far from the root as the tree is deep. -/
theorem Linked.exists_length_lineage_eq_depth (hl : t.Linked) (hpos : 0 < t.size) :
    ∃ n, t.contains n ∧ (t.lineage n).length = t.depth := by
  -- the last level has a node
  have hlast := List.getLast_mem (hl.levels_ne_nil hpos)
  obtain ⟨n, hn⟩ := List.exists_mem_of_ne_nil _ (ne_nil_of_mem_levels hlast)
  have hlevels : 0 < t.levels.length := List.length_pos_iff.2 (hl.levels_ne_nil hpos)
  have hlevel : n ∈ t.levels.getD (t.levels.length - 1) [] := by
    rwa [List.getLast_eq_getElem, ← List.getD_eq_getElem _ []] at hn
  obtain ⟨hn, hdepth⟩ := hl.mem_getD_levels_iff.1 hlevel
  refine ⟨n, contains_iff.2 hn, ?_⟩
  rw [← length_levels, lineage, List.length_reverse, List.length_cons, hdepth]
  omega

/-- The chains from the root are at most as long as the tree is deep, and one is as long. -/
theorem Linked.isGreatest_depth (hl : t.Linked) (hpos : 0 < t.size) :
    IsGreatest {k | ∃ chain n, t.Descent chain n ∧ chain.length = k} t.depth := by
  constructor
  · obtain ⟨n, hn, hlength⟩ := hl.exists_length_lineage_eq_depth hpos
    exact ⟨_, n, hl.descent_lineage hn, hlength⟩
  · rintro k ⟨chain, n, hdescent, rfl⟩
    obtain ⟨hn, rfl⟩ := hl.lineage_of_descent hdescent
    exact hl.length_lineage_le_depth hn

/-! ## The same nodes -/

/-- The frontiers of the search are the levels. -/
theorem frontiers_root (t : Tree) : t.frontiers t.root?.toList = t.levels := by
  rw [frontiers_eq_levelsFrom, levels_eq]

/-- Those of the collapser are the levels below the root. -/
theorem frontiers_below_root (t : Tree) :
    t.frontiers (t.root?.toList.flatMap t.children) = t.levels.tail := by
  rw [frontiers_eq_levelsFrom, tail_levels_eq]

/-- A search visits the root and then the levels that the collapser visits. -/
theorem breadthFirst_eq_append (t : Tree) :
    t.breadthFirst = t.root?.toList ++ t.levels.tail.flatten := by
  rw [breadthFirst, levels_eq]
  cases t.root? with
  | none => rfl
  | some root =>
    rw [Option.toList_some, levelsFrom_eq_cons (List.cons_ne_nil root []), List.tail_cons,
      List.flatten_cons]

/-- The depth of a tree is what the recursion gives for its root. -/
theorem depth_eq_depthBelow (t : Tree) : t.depth = (t.root?.map t.depthBelow).getD 0 := by
  rw [depth, skeleton?]
  cases hroot : t.root? with
  | none => rfl
  | some root => exact (depthBelow_eq_height (root?_eq_some_iff.1 hroot).2).symm

/-- A search for a synonym is a search by levels. -/
theorem findSynonym?_eq_searchFrom (rule : SynonymRule) {reference : Nat}
    (h : t.contains reference) :
    t.findSynonym? rule reference = (t.searchFrom (fun n => !rule.excludes t reference n &&
      sameContent (t.childLabels n) (t.childLabels reference)) t.root?.toList).bind t.path? := by
  rw [findSynonym?, if_pos h, searchFrom_eq_find?, frontiers_root]
  rfl

/-- The leaves among the nodes iterated over have a path each, and `leafPaths` lists these. -/
theorem map_some_leafPaths (t : Tree) :
    t.leafPaths.map some = (t.iterated.filter t.isLeaf).map t.path? := by
  -- the nodes that are listed are known, so each has a path
  have hpath : ∀ n ∈ t.preorder.filter t.isLeaf,
      t.path? n = some (PathStructure.ofSegments (t.way n)) :=
    fun n hn => path?_eq_way (lt_size_of_mem (List.mem_filter.1 hn).1)
  rw [iterated_eq_preorder, List.map_congr_left hpath, leafPaths_eq_map, List.map_map]
  rfl

/-- The walks over `t` agree. -/
structure TraversalsAgree (t : Tree) : Prop where
  /-- The iterator hands out every node once, each before what is below its children, one child
  after the other. -/
  iterated_eq : t.iterated = t.preorder
  iterated_below : ∀ n, t.contains n →
    t.iteratedFrom [n] = n :: (t.children n).flatMap fun c => t.iteratedFrom [c]
  iterated_once : t.iterated.Nodup
  mem_iterated : ∀ n, n ∈ t.iterated ↔ t.contains n
  /-- The loop of a search visits the same nodes, each once, as far as it runs. -/
  search_visits : (t.frontiers t.root?.toList).flatten.Perm t.iterated
  search_finds : ∀ p, t.searchFrom p t.root?.toList =
    (t.frontiers t.root?.toList).flatten.find? p
  synonym_searches : ∀ rule reference, t.contains reference →
    t.findSynonym? rule reference = (t.searchFrom (fun n => !rule.excludes t reference n &&
      sameContent (t.childLabels n) (t.childLabels reference)) t.root?.toList).bind t.path?
  /-- The loop of the collapser does so below the root, and lists the tokens of each frontier. -/
  collapse_visits : (t.root?.toList ++
    (t.frontiers (t.root?.toList.flatMap t.children)).flatten).Perm t.iterated
  collapse_lists : t.collapseLevels false =
    .ok ((t.frontiers (t.root?.toList.flatMap t.children)).map t.levelTokens)
  /-- The depth is what the recursion gives, one more than the lists of the collapser, and the
  length of a longest chain from the root. -/
  depth_empty : t.root? = none → t.depth = 0
  depth_recursive : t.depth = (t.root?.map t.depthBelow).getD 0
  depth_collapse : t.root? ≠ none →
    ∃ lists, t.collapseLevels false = .ok lists ∧ t.depth = 1 + lists.length
  depth_greatest : t.root? ≠ none →
    IsGreatest {k | ∃ chain n, t.Descent chain n ∧ chain.length = k} t.depth
  descent_iff : ∀ chain n, t.Descent chain n ↔ t.contains n ∧ t.lineage n = chain
  /-- Every node without children gives its path, in the order of the iterator. -/
  leafPaths_eq : t.leafPaths.map some = (t.iterated.filter t.isLeaf).map t.path?

/-- The stack, the loops by levels, the recursion and the parent links walk the same nodes, in every
tree that calls lead to. -/
theorem traversalsAgree_of_reachable (h : t.Reachable) : t.TraversalsAgree := by
  have hl := h.linked
  -- the searches go by levels, the iterator in pre-order, over the same nodes
  have hperm : t.breadthFirst.Perm t.iterated := by
    rw [iterated_eq_preorder]
    exact t.breadthFirst_perm_preorder
  have hpos : t.root? ≠ none → 0 < t.size := by
    intro hroot
    obtain ⟨root, hroot⟩ := Option.ne_none_iff_exists'.1 hroot
    have := contains_iff.1 (root?_eq_some_iff.1 hroot).2
    omega
  constructor
  case iterated_eq => exact t.iterated_eq_preorder
  case iterated_below => exact fun n => iteratedFrom_eq_cons
  case iterated_once => exact hperm.nodup_iff.1 hl.nodup_breadthFirst
  case mem_iterated =>
    intro n
    rw [← hperm.mem_iff, hl.mem_breadthFirst_iff, contains_iff]
  case search_visits =>
    rw [frontiers_root]
    exact hperm
  case search_finds => exact fun p => t.searchFrom_eq_find? p _
  case synonym_searches => exact fun rule reference => findSynonym?_eq_searchFrom rule
  case collapse_visits =>
    rw [frontiers_below_root, ← breadthFirst_eq_append]
    exact hperm
  case collapse_lists =>
    rw [frontiers_below_root]
    rfl
  case depth_empty =>
    intro hroot
    rw [depth_eq_depthBelow, hroot]
    rfl
  case depth_recursive => exact t.depth_eq_depthBelow
  case depth_collapse =>
    intro hroot
    have hne := List.length_pos_iff.2 (hl.levels_ne_nil (hpos hroot))
    refine ⟨_, rfl, ?_⟩
    rw [List.length_map, List.length_tail, ← length_levels]
    omega
  case depth_greatest => exact fun hroot => hl.isGreatest_depth (hpos hroot)
  case descent_iff => exact fun chain n => hl.descent_iff
  case leafPaths_eq => exact t.map_some_leafPaths

/-- A tree with leaves at three depths. -/
theorem traversalsAgree_ragged :
    let t := (ofRoot "home").afterEdits
      [.addChild 0 "a", .addChild 0 "b", .addChild 1 "c", .addChild 1 "d", .addChild 3 "e"]
    t.iterated = [0, 1, 3, 5, 4, 2] ∧ t.searchFrom t.isLeaf t.root?.toList = some 2 ∧
      t.leafPaths = ["/home/a/c/e", "/home/a/d", "/home/b"] ∧
      IsGreatest {k | ∃ chain n, t.Descent chain n ∧ chain.length = k} 4 := by
  intro t
  have hagree := traversalsAgree_of_reachable (t := t) ⟨_, _, .ofRoot "home", rfl⟩
  have hroot : t.root? ≠ none := by unfold t; decide +kernel
  have hdepth : t.depth = 4 := by unfold t; cbv
  have hpreorder : t.preorder = [0, 1, 3, 5, 4, 2] := by unfold t; cbv
  have hleaf : t.levels.flatten.find? t.isLeaf = some 2 := by unfold t; cbv
  have hleaves : t.preorder.filter t.isLeaf = [5, 4, 2] := by unfold t; cbv
  have hways : [5, 4, 2].map t.way = [["home", "a", "c", "e"], ["home", "a", "d"], ["home", "b"]] :=
    by unfold t; cbv
  have hpaths : t.leafPaths = ["/home/a/c/e", "/home/a/d", "/home/b"] := by
    rw [leafPaths_eq_map, hleaves]
    exact congrArg (List.map PathStructure.ofSegments) hways
  -- each answer is read off the ordered tree, whose traversals can be evaluated
  refine ⟨hagree.iterated_eq.trans hpreorder, ?_, hpaths, ?_⟩
  · rw [hagree.search_finds, frontiers_root, hleaf]
  · rw [← hdepth]
    exact hagree.depth_greatest hroot

end ComboTree.Tree
