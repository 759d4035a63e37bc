import ComboTree.Proofs.Depths
import Mathlib.Data.List.GetD

/-!
# Breadth-first order

The breadth-first walk of a tree goes level by level, and through each level from left to right.
Which of two nodes comes first can be told without the walk: from their depths, and at one depth
from their positions, which say for every node on the way down the how many-th child it is.

The walk makes each level out of the children of the one before.  Positions grow along a level
because they grow along the children of one node, and because a child stands to the left of the
children of every node to the right of its parent.

## Key results

- `Linked.pairwise_children`: positions grow along the children of a node
- `Linked.pairwise_flatMap_children`: from one level to the next
- `Linked.pairwise_breadthFirst`, `Linked.nodup_breadthFirst`, `Linked.mem_breadthFirst_iff`: the walk
  meets every node once, and in this order
- `Linked.find?_breadthFirst_eq_some_iff`: what a search along the walk finds
-/

namespace ComboTree.Tree

variable {t : Tree}

/-! ## The order -/

/-- Which child of its parent `n` is, counted from zero. -/
def place (t : Tree) (n : Nat) : Nat :=
  ((t.parent? n).map fun p => (t.children p).idxOf n).getD 0

/-- The places on the way from the root down to `n`. -/
def position (t : Tree) (n : Nat) : List Nat := (t.lineage n).map t.place

/-- Nearer to the root, or at the same depth and to the left. -/
def Before (t : Tree) (m n : Nat) : Prop :=
  (t.ancestors m).length < (t.ancestors n).length ∨
    (t.ancestors m).length = (t.ancestors n).length ∧ t.position m < t.position n

/-- Of two nodes at most one comes before the other. -/
theorem Before.asymm {m n : Nat} (h : t.Before m n) : ¬ t.Before n m := by
  rintro (hdepth | ⟨hdepth, hposition⟩)
  · rcases h with h | ⟨h, -⟩ <;> omega
  · rcases h with h | ⟨-, h⟩
    · omega
    · exact List.lt_asymm h hposition

/-- The position of a child goes on from that of its parent. -/
theorem Linked.position_child (hl : t.Linked) {n c : Nat} (hc : c ∈ t.children n) :
    t.position c = t.position n ++ [(t.children n).idxOf c] := by
  have hp := hl.mem_children_iff.1 hc
  have hplace : t.place c = (t.children n).idxOf c := by
    rw [place, hp]
    rfl
  rw [position, lineage_eq_concat hp, List.map_append, List.map_singleton, hplace]
  rfl

/-- A position has one place for every node on the way down, the root included. -/
theorem length_position (t : Tree) (n : Nat) :
    (t.position n).length = (t.ancestors n).length + 1 := by
  simp [position, lineage]

/-! ## One level and the next -/

/-- No child is listed twice, so positions grow along a list of children. -/
theorem Linked.pairwise_children (hl : t.Linked) (n : Nat) :
    (t.children n).Pairwise fun a b => t.position a < t.position b := by
  -- the position of the child at `i` ends in `i`, and they begin alike
  rw [List.pairwise_iff_getElem]
  intro i j hi hj hij
  rw [hl.position_child (List.getElem_mem hi), hl.position_child (List.getElem_mem hj),
    (hl.nodup_children n).idxOf_getElem i hi, (hl.nodup_children n).idxOf_getElem j hj]
  exact List.append_left_lt (List.cons_lt_cons_iff.2 (.inl hij))

/-- A child stands to the left of the children of the nodes to the right of its parent. -/
theorem Linked.position_lt_of_parents (hl : t.Linked) {m n a b : Nat}
    (hdepth : (t.ancestors m).length = (t.ancestors n).length)
    (h : t.position m < t.position n) (ha : a ∈ t.children m) (hb : b ∈ t.children n) :
    t.position a < t.position b := by
  -- of lists of one length the first difference decides, whatever is appended
  have hlength : (t.position m).length = (t.position n).length := by
    rw [length_position, length_position, hdepth]
  rw [hl.position_child ha, hl.position_child hb]
  exact List.append_lt_append_of_length_eq hlength h _ _

/-- The step: when positions grow along a level, they grow along the next one. -/
theorem Linked.pairwise_flatMap_children (hl : t.Linked) {frontier : List Nat} {d : Nat}
    (hdepth : ∀ n ∈ frontier, (t.ancestors n).length = d)
    (h : frontier.Pairwise fun a b => t.position a < t.position b) :
    (frontier.flatMap t.children).Pairwise fun a b => t.position a < t.position b := by
  rw [List.pairwise_flatMap]
  refine ⟨fun n _ => hl.pairwise_children n, h.imp_of_mem ?_⟩
  intro m n hm hn hlt a ha b hb
  exact hl.position_lt_of_parents ((hdepth m hm).trans (hdepth n hn).symm) hlt ha hb

/-- The run: positions grow along every level. -/
theorem Linked.pairwise_getD_levels (hl : t.Linked) (d : Nat) :
    (t.levels.getD d []).Pairwise fun a b => t.position a < t.position b := by
  -- along the depths: the root level has one node, and the step gives each level from the last
  induction d with
  | zero =>
    rw [levels_eq, getD_levelsFrom, Function.iterate_zero_apply]
    cases t.root? with
    | none => exact List.Pairwise.nil
    | some root => exact List.pairwise_singleton _ root
  | succ d ih =>
    have hdepth : ∀ n ∈ t.levels.getD d [], (t.ancestors n).length = d :=
      fun n hn => (hl.mem_getD_levels_iff.1 hn).2
    have hstep := hl.pairwise_flatMap_children hdepth ih
    rw [levels_eq, getD_levelsFrom] at hstep ⊢
    rwa [Function.iterate_succ_apply']

/-! ## The walk -/

/-- The walk goes from one node to those that come after it. -/
theorem Linked.pairwise_breadthFirst (hl : t.Linked) : t.breadthFirst.Pairwise t.Before := by
  -- the depths of nodes on two levels are the numbers of these
  have hdepth : ∀ {d} (hd : d < t.levels.length), ∀ n ∈ t.levels[d], (t.ancestors n).length = d := by
    intro d hd n hn
    rw [← List.getD_eq_getElem _ [] hd] at hn
    exact (hl.mem_getD_levels_iff.1 hn).2
  rw [breadthFirst, List.pairwise_flatten]
  constructor
  · intro level hlevel
    obtain ⟨d, hd, rfl⟩ := List.getElem_of_mem hlevel
    have hgrow := hl.pairwise_getD_levels d
    rw [List.getD_eq_getElem _ [] hd] at hgrow
    refine hgrow.imp_of_mem ?_
    intro m n hm hn hlt
    exact .inr ⟨by rw [hdepth hd m hm, hdepth hd n hn], hlt⟩
  · -- nodes of two levels, where the depth alone decides
    rw [List.pairwise_iff_getElem]
    intro i j hi hj hij m hm n hn
    refine .inl ?_
    rw [hdepth hi m hm, hdepth hj n hn]
    exact hij

/-- No node is met twice. -/
theorem Linked.nodup_breadthFirst (hl : t.Linked) : t.breadthFirst.Nodup := by
  refine hl.pairwise_breadthFirst.imp fun hbefore => ?_
  rintro rfl
  exact hbefore.asymm hbefore

/-- The walk meets the nodes of the tree. -/
theorem Linked.mem_breadthFirst_iff (hl : t.Linked) {n : Nat} :
    n ∈ t.breadthFirst ↔ n < t.size := by
  rw [breadthFirst, List.mem_flatten]
  constructor
  · rintro ⟨level, hlevel, hn⟩
    exact lt_size_of_mem_levels hlevel hn
  · intro hn
    have hlevel : n ∈ t.levels.getD (t.ancestors n).length [] :=
      hl.mem_getD_levels_iff.2 ⟨hn, rfl⟩
    by_cases hd : (t.ancestors n).length < t.levels.length
    · rw [List.getD_eq_getElem _ [] hd] at hlevel
      exact ⟨_, List.getElem_mem hd, hlevel⟩
    · rw [List.getD_eq_default _ _ (Nat.not_lt.1 hd)] at hlevel
      exact absurd hlevel List.not_mem_nil

/-- A search along the walk ends at the node that comes before all others that pass. -/
theorem Linked.find?_breadthFirst_eq_some_iff (hl : t.Linked) {p : Nat → Bool} {n : Nat} :
    t.breadthFirst.find? p = some n ↔
      n < t.size ∧ p n = true ∧ ∀ m < t.size, p m = true → m ≠ n → t.Before n m := by
  rw [hl.pairwise_breadthFirst.find?_eq_some_iff fun _ _ h => h.asymm]
  simp only [hl.mem_breadthFirst_iff]

end ComboTree.Tree
