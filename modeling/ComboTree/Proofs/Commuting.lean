import ComboTree.Proofs.InPlace
import ComboTree.Proofs.Renumbering

/-!
# Insertions below different nodes commute

An insertion goes down along first children, and an earlier insertion may have added children with
the very labels that it looks for.  These come last among their siblings, so the way stays the same;
and an insertion below one node leaves the children of every other node alone.  So two insertions
that succeed on a tree and add below different nodes succeed in either order, each below the node
that it had found before.

The orders differ in the handles only: each block of new nodes has the handles that the other block
leaves free.  Exchanging the two blocks takes the one tree to the other.

## Key results

- `exchangeBlocks`: the permutation of the handles
- `node?_addChildren_addChildren`: two blocks of children, node by node
- `renumbers_addChildren`: blocks of children below different nodes, in either order
- `Policy.locate_of_grows`: a parent that was found is found again
- `Policy.insert_comm`: whole insertions
-/

namespace ComboTree

/-! ## Two blocks of handles -/

/-- Of the numbers from `s` on, the first `k` come behind the next `m`; the others stay. -/
def exchange (s k m n : Nat) : Nat :=
  if n < s then n else if n < s + k then n + m else if n < s + k + m then n - k else n

/-- Exchanging the blocks back gives every number back. -/
theorem exchange_exchange (s k m n : Nat) : exchange s m k (exchange s k m n) = n := by
  unfold exchange
  -- each number is before the blocks, in one of them, or behind both
  split_ifs <;> omega

/-- The two blocks of `k` and of `m` numbers that start at `s`, each in the other's place. -/
def exchangeBlocks (s k m : Nat) : Equiv.Perm Nat where
  toFun := exchange s k m
  invFun := exchange s m k
  left_inv := exchange_exchange s k m
  right_inv := exchange_exchange s m k

/-- Numbers before the blocks stay. -/
theorem exchangeBlocks_of_lt {s n : Nat} (h : n < s) (k m : Nat) : exchangeBlocks s k m n = n :=
  if_pos h

/-- A number of the first block moves up by the length of the second. -/
theorem exchangeBlocks_first {s k n : Nat} (h : s ≤ n) (hk : n < s + k) (m : Nat) :
    exchangeBlocks s k m n = n + m := by
  show exchange s k m n = n + m
  rw [exchange, if_neg (by omega), if_pos hk]

/-- A number of the second block moves down by the length of the first. -/
theorem exchangeBlocks_second {s k m n : Nat} (h : s + k ≤ n) (hm : n < s + k + m) :
    exchangeBlocks s k m n = n - k := by
  show exchange s k m n = n - k
  rw [exchange, if_neg (by omega), if_neg (by omega), if_pos hm]

/-- Numbers behind the blocks stay. -/
theorem exchangeBlocks_of_le {s k m n : Nat} (h : s + k + m ≤ n) : exchangeBlocks s k m n = n := by
  show exchange s k m n = n
  rw [exchange, if_neg (by omega), if_neg (by omega), if_neg (by omega)]

/-- The first block is moved behind the second. -/
theorem map_exchangeBlocks_first (s k m : Nat) :
    (List.range' s k).map (exchangeBlocks s k m) = List.range' (s + m) k := by
  apply List.ext_getElem (by simp)
  intro i hi _
  have hi : i < k := by simpa using hi
  rw [List.getElem_map, List.getElem_range'_1, List.getElem_range'_1,
    exchangeBlocks_first (by omega) (by omega)]
  omega

/-- The second block is moved to where the first one was. -/
theorem map_exchangeBlocks_second (s k m : Nat) :
    (List.range' (s + k) m).map (exchangeBlocks s k m) = List.range' s m := by
  apply List.ext_getElem (by simp)
  intro i hi _
  have hi : i < m := by simpa using hi
  rw [List.getElem_map, List.getElem_range'_1, List.getElem_range'_1,
    exchangeBlocks_second (by omega) (by omega)]
  omega

/-! ## Two blocks of children -/

/-- A renumbered leaf is a leaf below the renumbered parent. -/
theorem Node.renumber_leaf (σ : Nat → Nat) (parent : Option Nat) (label : String) :
    (Node.leaf parent label).renumber σ = .leaf (parent.map σ) label := rfl

/-- Renumbering a node that has adopted children renumbers the children too. -/
theorem Node.renumber_adopt (σ : Nat → Nat) (node : Node) (handles : List Nat) :
    (node.adopt handles).renumber σ = (node.renumber σ).adopt (handles.map σ) := by
  simp [Node.renumber, Node.adopt]

namespace Tree

variable {t u : Tree}

/-- A node whose links are old is not changed where only new handles are. -/
theorem renumber_eq_self {σ : Nat → Nat} (hσ : ∀ n < t.size, σ n = n) {n : Nat} {node : Node}
    (hnode : t.node? n = some node) : node.renumber σ = node := by
  obtain ⟨hn, rfl⟩ := node?_eq_some_iff.1 hnode
  -- the parent comes before the node, and the children are in the tree
  have hparent : t.nodes[n].parent.map σ = t.nodes[n].parent := by
    cases hp : t.nodes[n].parent with
    | none => rfl
    | some p =>
      have := t.parent_lt n hn p hp
      rw [Option.map_some, hσ p (by omega)]
  have hchildren : t.nodes[n].children.map σ = t.nodes[n].children :=
    (List.map_congr_left fun c hc => hσ c (t.child_bounds n hn c hc).2).trans (List.map_id _)
  rw [Node.renumber, hparent, hchildren]

/-- After two blocks of children below different nodes, each of the two has its own block. -/
theorem node?_addChildren_addChildren {p q : Nat} (hp : p < t.size) (hq : q < t.size)
    (hne : p ≠ q) (xs ys : List String) (n : Nat) :
    ((t.addChildren p xs).addChildren q ys).node? n =
      if n < t.size then
        (t.node? n).map fun node =>
          if n = p then node.adopt (List.range' t.size xs.length)
          else if n = q then node.adopt (List.range' (t.size + xs.length) ys.length) else node
      else if n < t.size + xs.length then xs[n - t.size]?.map (Node.leaf (some p))
      else ys[n - t.size - xs.length]?.map (Node.leaf (some q)) := by
  have hsize := size_addChildren hp xs
  rw [node?_addChildren (by omega), node?_addChildren hp, hsize, Nat.sub_add_eq]
  by_cases hn : n < t.size
  · rw [if_pos (by omega), if_pos hn, if_pos hn, Option.map_map]
    congr 1
    funext node
    by_cases hnp : n = p
    · simp [hnp, hne]
    · simp [hnp]
  · rw [if_neg hn, if_neg hn]
    -- the first block is old when the second comes, and no node of it is the second parent
    have hnq : n ≠ q := by omega
    simp [hnq, Function.comp_def]

/-- Blocks of children below different nodes give one tree in either order, up to the handles of the
two blocks. -/
theorem renumbers_addChildren {p q : Nat} (hp : p < t.size) (hq : q < t.size) (hne : p ≠ q)
    (xs ys : List String) :
    ((t.addChildren p xs).addChildren q ys).Renumbers ((t.addChildren q ys).addChildren p xs)
      (exchangeBlocks t.size xs.length ys.length) := by
  -- no old handle is moved
  have hold : ∀ n < t.size, exchangeBlocks t.size xs.length ys.length n = n :=
    fun n hn => exchangeBlocks_of_lt hn _ _
  constructor
  case root?_eq =>
    -- both trees have a root, since a tree with a node `p` is not empty
    have hsize := (grows_addChildren t p xs).size_le
    have hsize' := (grows_addChildren t q ys).size_le
    have hgrows := (grows_addChildren (t.addChildren p xs) q ys).size_le
    have hgrows' := (grows_addChildren (t.addChildren q ys) p xs).size_le
    rw [Tree.root?_eq, Tree.root?_eq, if_neg (by omega), if_neg (by omega), Option.map_some,
      hold 0 (by omega)]
  case node?_eq =>
    intro n
    rw [node?_addChildren_addChildren hq hp hne.symm, node?_addChildren_addChildren hp hq hne]
    by_cases hn : n < t.size
    · -- an old node has its own block of children, if any, in either order
      rw [hold n hn, if_pos hn, if_pos hn]
      cases hnode : t.node? n with
      | none => rfl
      | some node =>
        have hself := renumber_eq_self hold hnode
        by_cases hnp : n = p
        · subst hnp
          simp [hne, Node.renumber_adopt, hself, map_exchangeBlocks_first]
        · by_cases hnq : n = q
          · subst hnq
            simp [hnp, Node.renumber_adopt, hself, map_exchangeBlocks_second]
          · simp [hnp, hnq, hself]
    · rw [if_neg hn]
      -- a new node is a leaf, in whichever block, and the parents are old
      have hleaf : ∀ {r}, r < t.size → Node.renumber (exchangeBlocks t.size xs.length ys.length) ∘
          Node.leaf (some r) = Node.leaf (some r) := by
        intro r hr
        funext label
        rw [Function.comp_apply, Node.renumber_leaf, Option.map_some, hold r hr]
      by_cases hfirst : n < t.size + xs.length
      · have hplace : n + ys.length - t.size - ys.length = n - t.size := by omega
        rw [exchangeBlocks_first (by omega) hfirst, if_neg (by omega), if_neg (by omega),
          if_pos hfirst, Option.map_map, hleaf hp, hplace]
      · rw [if_neg hfirst, Option.map_map, hleaf hq]
        by_cases hsecond : n < t.size + xs.length + ys.length
        · rw [exchangeBlocks_second (by omega) hsecond, if_neg (by omega), if_pos (by omega),
            Nat.sub_right_comm]
        · rw [exchangeBlocks_of_le (by omega), if_neg hn, if_neg (by omega),
            List.getElem?_eq_none (by omega), List.getElem?_eq_none (by omega)]
          rfl

end Tree

/-! ## Two insertions -/

namespace Policy

variable {policy policy' : Policy} {mode mode' : InsertMode} {t u u' : Tree} {path path' : String}
  {parent parent' : Nat} {added added' : List String} {nodes nodes' : List Nat}

/-- Once the parent is found, all depends on the labels. -/
theorem insert_eq_ok_iff_of_locate (h : policy.locate t path = .ok (parent, added)) :
    policy.insert mode t path = .ok (nodes, u) ↔ ∃ labels,
      policy.insertedLabels mode added = .ok labels ∧
      nodes = List.range' t.size labels.length ∧ u = t.addChildren parent labels := by
  rw [insert, h]
  simp only [bind, Except.bind]
  cases policy.insertedLabels mode added with
  | error fault => simp
  | ok labels => simp [pure, Except.pure, eq_comm]

/-- The parent that a path names is a node of the tree. -/
theorem lt_size_of_locate (h : policy.locate t path = .ok (parent, added)) : parent < t.size := by
  obtain ⟨_, _, -, hwalk, -⟩ := locate_eq_ok_iff.1 h
  exact Tree.lt_size_of_walk? hwalk

/-- A parent that was found is found again, with whatever has been added since. -/
theorem locate_of_grows (hgrows : t.Grows u) (h : policy.locate t path = .ok (parent, added)) :
    policy.locate u path = .ok (parent, added) := by
  obtain ⟨above, last, hsegs, hwalk, htokens⟩ := locate_eq_ok_iff.1 h
  exact locate_eq_ok_iff.2 ⟨above, last, hsegs, hgrows.walk? hwalk, htokens⟩

/-- Two insertions that succeed on a tree, with whatever policies and modes, and that find different
parents there.  Each succeeds after the other as well, and both orders give one ordered tree of
labels: a permutation that moves only handles of new nodes takes the one store to the other, and the
new nodes of each insertion to its new nodes in the other order.  So the drawing, the paths of the
leaves and what collapsing gives, a text or a fault, do not show the order. -/
theorem insert_comm (hinsert : policy.insert mode t path = .ok (nodes, u))
    (hinsert' : policy'.insert mode' t path' = .ok (nodes', u'))
    (hparent : policy.locate t path = .ok (parent, added))
    (hparent' : policy'.locate t path' = .ok (parent', added')) (hne : parent ≠ parent') :
    ∃ later later' v v' σ, policy'.insert mode' u path' = .ok (later', v) ∧
      policy.insert mode u' path = .ok (later, v') ∧
      v.Renumbers v' σ ∧ (∀ n, t.contains n → σ n = n) ∧
      nodes.map σ = later ∧ later'.map σ = nodes' ∧
      v'.shape? = v.shape? ∧ v'.render = v.render ∧ v'.leafPaths = v.leafPaths ∧
      ∀ validate, v'.collapse validate = v.collapse validate := by
  obtain ⟨labels, hlabels, rfl, rfl⟩ := (insert_eq_ok_iff_of_locate hparent).1 hinsert
  obtain ⟨labels', hlabels', rfl, rfl⟩ := (insert_eq_ok_iff_of_locate hparent').1 hinsert'
  have hknown := lt_size_of_locate hparent
  have hknown' := lt_size_of_locate hparent'
  -- after the other insertion the same parent is found
  have hagain := locate_of_grows (Tree.grows_addChildren t parent' labels') hparent
  have hagain' := locate_of_grows (Tree.grows_addChildren t parent labels) hparent'
  have hlater := (insert_eq_ok_iff_of_locate hagain).2 ⟨labels, hlabels, rfl, rfl⟩
  have hlater' := (insert_eq_ok_iff_of_locate hagain').2 ⟨labels', hlabels', rfl, rfl⟩
  have hσ := Tree.renumbers_addChildren hknown hknown' hne labels labels'
  refine ⟨_, _, _, _, _, hlater', hlater, hσ, ?_, ?_, ?_, hσ.shape?_eq, hσ.render_eq,
    hσ.leafPaths_eq, hσ.collapse_eq⟩
  · intro n hn
    exact exchangeBlocks_of_lt (Tree.contains_iff.1 hn) _ _
  · rw [Tree.size_addChildren hknown', map_exchangeBlocks_first]
  · rw [Tree.size_addChildren hknown, map_exchangeBlocks_second]

/-- One insertion adds a second child with the label `a`, and the other one goes along the first. -/
theorem insert_comm_twins :
    let t := (Tree.ofRoot "home").afterEdits [.addChild 0 "a"]
    insert {} .combination t "/home/b|a" = .ok ([2, 3, 4], t.addChildren 0 ["a", "b", "a-b"]) ∧
    insert {} .literal t "/home/a/x" = .ok ([2], t.addChildren 1 ["x"]) ∧
    ∃ later later' v v',
      insert {} .literal (t.addChildren 0 ["a", "b", "a-b"]) "/home/a/x" = .ok (later', v) ∧
      insert {} .combination (t.addChildren 1 ["x"]) "/home/b|a" = .ok (later, v') ∧
      v'.leafPaths = v.leafPaths ∧ ∀ validate, v'.collapse validate = v.collapse validate := by
  intro t
  have hinsert : insert {} .combination t "/home/b|a" =
      .ok ([2, 3, 4], t.addChildren 0 ["a", "b", "a-b"]) := by unfold t; cbv
  have hinsert' : insert {} .literal t "/home/a/x" = .ok ([2], t.addChildren 1 ["x"]) := by
    unfold t; cbv
  have hparent : locate {} t "/home/b|a" = .ok (0, ["b", "a"]) := by unfold t; cbv
  have hparent' : locate {} t "/home/a/x" = .ok (1, ["x"]) := by unfold t; cbv
  -- the two parents are the root and the first node below it
  obtain ⟨later, later', v, v', _, hlater', hlater, -, -, -, -, -, -, hpaths, hcollapse⟩ :=
    insert_comm hinsert hinsert' hparent hparent' Nat.zero_ne_one
  exact ⟨hinsert, hinsert', later, later', v, v', hlater', hlater, hpaths, hcollapse⟩

end Policy

end ComboTree
