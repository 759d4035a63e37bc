import ComboTree.Proofs.BreadthFirst
import ComboTree.Proofs.Reachable

/-!
# What collapsing lists

Labels may be any texts and a tree may end early anywhere.  Collapsing without validation lists, for
every depth below the root, the pieces that the labels of that depth are cut into at their dashes,
each once and in reading order: through the nodes of the depth from left to right, and through each
label from its start.  `ListsPieces` says so from the nodes, their depths and their positions,
without the frontiers.

A level is read as a list of occurrences: a piece, the node that has it in its label, and its place
there.  Along that list reading goes on, so to keep first occurrences is to keep this order.

## Key results

- `levelTokens_eq_map_occurrences`: the tokens of a level, by what is read there
- `Linked.pairwise_occurrences`: reading goes on along a level
- `Linked.listsPieces_tokensAt`: the list of one depth
- `collapse_lists_pieces`: the lists and the text of every tree that calls lead to
-/

namespace ComboTree.Tree

open Combination (labelTokens)

variable {t : Tree} {d : Nat}

/-! ## Occurrences -/

/-- The node `n` has depth `d`, and `piece` is the `i`-th piece of its label, counted from zero. -/
structure OccursAt (t : Tree) (d n i : Nat) (piece : String) : Prop where
  known : t.contains n
  depth_eq : (t.ancestors n).length = d
  piece_eq : (labelTokens (t.labelAt n))[i]? = some piece

/-- Of two occurrences at one depth the first is read first: its node stands to the left, or it is
the earlier one in the same label. -/
def ReadBefore (t : Tree) (m i n j : Nat) : Prop :=
  t.position m < t.position n ∨ m = n ∧ i < j

/-- At depth `d` some occurrence of `a` is read before every occurrence of `b`. -/
def FirstReadBefore (t : Tree) (d : Nat) (a b : String) : Prop :=
  ∃ m i, t.OccursAt d m i a ∧ ∀ n j, t.OccursAt d n j b → t.ReadBefore m i n j

/-- The list holds the pieces of depth `d`, each once, in the order of their first occurrences. -/
structure ListsPieces (t : Tree) (d : Nat) (list : List String) : Prop where
  ne_nil : list ≠ []
  nodup : list.Nodup
  mem_iff : ∀ piece, piece ∈ list ↔ ∃ n i, t.OccursAt d n i piece
  ordered : list.Pairwise (t.FirstReadBefore d)

/-! ## Reading a level -/

/-- The pieces of the labels of a level in reading order, each with its node and its place in the
label. -/
def occurrences (t : Tree) (level : List Nat) : List (String × Nat × Nat) :=
  level.flatMap fun n => (labelTokens (t.labelAt n)).zipIdx.map fun (piece, i) => (piece, n, i)

/-- What is read at a node are the pieces of its label, each at its place. -/
theorem mem_occurrences_iff {level : List Nat} {piece : String} {n i : Nat} :
    (piece, n, i) ∈ t.occurrences level ↔
      n ∈ level ∧ (labelTokens (t.labelAt n))[i]? = some piece := by
  rw [occurrences, List.mem_flatMap]
  constructor
  · intro ⟨m, hm, hmem⟩
    obtain ⟨⟨p, j⟩, hpiece, hentry⟩ := List.mem_map.1 hmem
    obtain ⟨rfl, rfl, rfl⟩ : p = piece ∧ m = n ∧ j = i := by simpa using hentry
    exact ⟨hm, List.mem_zipIdx_iff_getElem?.1 hpiece⟩
  · intro ⟨hn, hpiece⟩
    exact ⟨n, hn, List.mem_map.2 ⟨(piece, i), List.mem_zipIdx_iff_getElem?.2 hpiece, rfl⟩⟩

/-- A level holds the occurrences of its depth. -/
theorem Linked.mem_occurrences_level_iff (hl : t.Linked) {piece : String} {n i : Nat} :
    (piece, n, i) ∈ t.occurrences (t.levels.getD d []) ↔ t.OccursAt d n i piece := by
  rw [mem_occurrences_iff, hl.mem_getD_levels_iff, ← contains_iff]
  -- the nodes of a level are those of its depth, and the rest is the same on both sides
  constructor
  · intro ⟨⟨hn, hd⟩, hpiece⟩
    exact ⟨hn, hd, hpiece⟩
  · intro h
    exact ⟨⟨h.known, h.depth_eq⟩, h.piece_eq⟩

/-- Reading goes on along a level. -/
theorem Linked.pairwise_occurrences (hl : t.Linked) (d : Nat) :
    (t.occurrences (t.levels.getD d [])).Pairwise fun x y =>
      t.ReadBefore x.2.1 x.2.2 y.2.1 y.2.2 := by
  rw [occurrences, List.pairwise_flatMap]
  constructor
  · -- within a label the places count upwards
    intro n _
    rw [List.pairwise_map]
    have hplaces : ((labelTokens (t.labelAt n)).zipIdx.map Prod.snd).Pairwise (· < ·) := by
      rw [List.zipIdx_map_snd]
      exact List.pairwise_lt_range'
    refine (List.pairwise_map.1 hplaces).imp ?_
    intro x y hlt
    exact .inr ⟨rfl, hlt⟩
  · -- and from one node to the next the positions grow
    refine (hl.pairwise_getD_levels d).imp ?_
    intro m n hlt x hx y hy
    obtain ⟨_, -, rfl⟩ := List.mem_map.1 hx
    obtain ⟨_, -, rfl⟩ := List.mem_map.1 hy
    exact .inl hlt

/-- The tokens of a level are the pieces that are read there, without the repetitions. -/
theorem levelTokens_eq_map_occurrences {level : List Nat} (h : ∀ n ∈ level, n < t.size) :
    t.levelTokens level = ((t.occurrences level).map Prod.fst).eraseDups := by
  -- without node and place an occurrence is the piece again
  have hpieces : ∀ n, ((labelTokens (t.labelAt n)).zipIdx.map fun (piece, i) =>
      (piece, n, i)).map Prod.fst = labelTokens (t.labelAt n) := by
    intro n
    rw [List.map_map]
    exact List.zipIdx_map_fst 0 _
  rw [levelTokens, filterMap_label? h, List.flatMap_map, occurrences, List.map_flatMap]
  simp only [hpieces]

/-! ## The list of one depth -/

/-- A depth that has nodes is listed piece by piece. -/
theorem Linked.listsPieces_tokensAt (hl : t.Linked) (hd : d < t.levels.length) :
    t.ListsPieces d (t.tokensAt d) := by
  have hlevel : t.levels.getD d [] ∈ t.levels := by
    rw [List.getD_eq_getElem _ _ hd]
    exact List.getElem_mem hd
  have hread : t.tokensAt d =
      ((t.occurrences (t.levels.getD d [])).map Prod.fst).eraseDups :=
    levelTokens_eq_map_occurrences fun n => lt_size_of_mem_levels hlevel
  constructor
  case ne_nil => exact levelTokens_ne_nil hlevel
  case nodup => exact List.nodup_eraseDups _
  case mem_iff =>
    intro piece
    rw [hread, List.mem_eraseDups, List.mem_map]
    constructor
    · intro ⟨⟨p, n, i⟩, hmem, hp⟩
      obtain rfl : p = piece := hp
      exact ⟨n, i, hl.mem_occurrences_level_iff.1 hmem⟩
    · intro ⟨n, i, h⟩
      exact ⟨(piece, n, i), hl.mem_occurrences_level_iff.2 h, rfl⟩
  case ordered =>
    rw [hread]
    -- what is kept is the first occurrence, and reading goes on from it to all others
    refine ((hl.pairwise_occurrences d).eraseDups_map Prod.fst).imp ?_
    intro a b ⟨⟨p, m, i⟩, hmem, hp, hbefore⟩
    obtain rfl : p = a := hp
    refine ⟨m, i, hl.mem_occurrences_level_iff.1 hmem, ?_⟩
    intro n j h
    exact hbefore (b, n, j) (hl.mem_occurrences_level_iff.2 h) rfl

/-! ## All depths -/

/-- Every tree that calls lead to, whatever its shape and labels, collapses without validation.
There is a list for every depth below the root, with the pieces of the labels of that depth in the
order of their first occurrences.  The text of the empty tree is a slash; that of any other tree is
written from the label of the root as it is and these lists. -/
theorem collapse_lists_pieces (h : t.Reachable) :
    ∃ lists, t.collapseLevels false = .ok lists ∧ lists.length = t.depth - 1 ∧
      (∀ d (hd : d < lists.length), t.ListsPieces (d + 1) lists[d]) ∧
      (t.isEmpty → lists = [] ∧ ∀ validate, t.collapse validate = .ok "/") ∧
      (¬ t.isEmpty → ∃ root label, t.root? = some root ∧ t.label? root = some label ∧
        t.collapse false = .ok (PathStructure.serialize label lists)) := by
  have hlists : t.collapseLevels false = .ok (t.levels.tail.map t.levelTokens) := rfl
  refine ⟨_, hlists, ?_, ?_, ?_, ?_⟩
  · rw [List.length_map, List.length_tail, length_levels]
  · intro d hd
    rw [List.length_map, List.length_tail] at hd
    have hlist := h.linked.listsPieces_tokensAt (d := d + 1) (by omega)
    rwa [← getD_levelTokens, List.getD_eq_getElem] at hlist
  · -- the empty tree has no root to write and no levels to list
    intro hempty
    have hroot : t.root? = none := by
      rw [root?_eq, if_pos (isEmpty_iff.1 hempty)]
    constructor
    · rw [levels_eq, hroot]
      rfl
    · intro validate
      rw [collapse, hroot]
      rfl
  · intro hne
    have hpos : t.size ≠ 0 := fun hzero => hne (isEmpty_iff.2 hzero)
    have hroot : t.root? = some 0 := by rw [root?_eq, if_neg hpos]
    exact ⟨0, _, hroot, label?_eq_some (by omega), collapse_false_of_pos (by omega)⟩

/-- The nodes of the second depth have different parents, and one label has an empty piece. -/
theorem collapse_lists_pieces_ragged :
    let t := (ofRoot "a-home").afterEdits [.addChild 0 "b-a", .addChild 0 "c", .addChild 1 "x",
      .addChild 2 "-y-x", .addChild 3 "z"]
    t.collapse false = .ok "/a-home/b|a|c/x||y/z" ∧ t.ListsPieces 2 ["x", "", "y"] := by
  intro t
  have hlevels : t.levels = [[0], [1, 2], [3, 4], [5]] := by unfold t; cbv
  have htokens : [[1, 2], [3, 4], [5]].map t.levelTokens =
      [["b", "a", "c"], ["x", "", "y"], ["z"]] := by unfold t; cbv
  have hlists : t.collapseLevels false = .ok [["b", "a", "c"], ["x", "", "y"], ["z"]] := by
    show Except.ok (t.levels.tail.map t.levelTokens) = _
    rw [hlevels, List.tail_cons, htokens]
  have htext : t.collapse false = .ok "/a-home/b|a|c/x||y/z" := by
    rw [collapse_false_of_pos (by unfold t; decide +kernel), hlevels, List.tail_cons, htokens]
    rfl
  obtain ⟨lists, hok, -, hpieces, -⟩ :=
    collapse_lists_pieces (t := t) ⟨_, _, .ofRoot "a-home", rfl⟩
  rw [hlists] at hok
  obtain rfl := Except.ok.inj hok
  exact ⟨htext, hpieces 1 (by decide)⟩

end ComboTree.Tree
