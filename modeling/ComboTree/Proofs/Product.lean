import ComboTree.Proofs.Expansion
import ComboTree.Proofs.Growth
import ComboTree.Proofs.Shape
import Mathlib.Data.List.Permutation
import Mathlib.Data.List.Range

/-!
# An expansion is the product of its levels

`Tree.product` attaches one level after the other.  The nodes of a level are consecutive, and so are
the blocks of children that the next level hangs below them.  From this the store of a product can be
read off: as an ordered tree it is `Rose.product`, and its levels one after the other are its
handles in order.

## Key results

- `children_attachLevel_range`, `map_labelAt_attachLevel`: one level, node by node
- `labelled_attachLevels`, `flatten_levelsFrom_attachLevels`: all levels, by induction on them
- `labelled_product`, `breadthFirst_product`: the same for a whole product
- `Linked.exists_labelled_eq_product`, `Linked.childLabels_eq_of_depth_eq`, `childLabels_product`:
  what stands at and below each node of a product
- `expand_product`: an expansion is the product tree, walked by levels and listed by leaves
-/

namespace ComboTree.Tree

variable {t : Tree}

/-! ## One level -/

/-- Attaching a level starts with the first node of the frontier. -/
theorem attachLevel_range_succ (t : Tree) (s m : Nat) (labels : List String) :
    t.attachLevel (List.range' s (m + 1)) labels =
      (t.addChildren s labels).attachLevel (List.range' (s + 1) m) labels := rfl

/-- Below consecutive nodes stand consecutive blocks of children. -/
theorem children_attachLevel_range {s m : Nat} (h : s + m ≤ t.size) (labels : List String)
    (n : Nat) : (t.attachLevel (List.range' s m) labels).children n =
      if s ≤ n ∧ n < s + m then
        t.children n ++ List.range' (t.size + (n - s) * labels.length) labels.length
      else t.children n := by
  induction m generalizing t s with
  | zero =>
    rw [if_neg (by omega)]
    rfl
  | succ m ih =>
    have hs : s < t.size := by omega
    have hsize : s + 1 + m ≤ (t.addChildren s labels).size := by
      rw [size_addChildren hs]
      omega
    -- before the first node of the frontier, at it, or behind it
    rw [attachLevel_range_succ, ih hsize, children_addChildren hs, size_addChildren hs]
    rcases Nat.lt_trichotomy n s with hlt | rfl | hgt
    · rw [if_neg (by omega), if_neg (by omega), if_neg (by omega)]
    · rw [if_neg (by omega), if_pos rfl, if_pos (by omega), Nat.sub_self, Nat.zero_mul,
        Nat.add_zero]
    · -- the first node's block stands before those of the others and moves each on by its length
      obtain ⟨k, rfl⟩ := Nat.exists_eq_add_of_lt hgt
      have hk : s + k + 1 - (s + 1) = k := by omega
      have hk' : s + k + 1 - s = k + 1 := by omega
      have hblock : t.size + labels.length + k * labels.length =
          t.size + (k + 1) * labels.length := by
        rw [Nat.succ_mul]
        omega
      rw [if_neg (by omega : ¬ s + k + 1 = s), hk, hk', hblock]
      split
      · rw [if_pos (by omega)]
      · rw [if_neg (by omega)]

/-- Each block of children carries the labels of the level in order. -/
theorem map_labelAt_attachLevel {s m : Nat} (h : s + m ≤ t.size) (labels : List String) {i : Nat}
    (hi : i < m) : (List.range' (t.size + i * labels.length) labels.length).map
      (t.attachLevel (List.range' s m) labels).labelAt = labels := by
  induction m generalizing t s i with
  | zero => exact absurd hi (Nat.not_lt_zero i)
  | succ m ih =>
    have hs : s < t.size := by omega
    have hsize : s + 1 + m ≤ (t.addChildren s labels).size := by
      rw [size_addChildren hs]
      omega
    rw [attachLevel_range_succ]
    cases i with
    | zero =>
      -- the first block is there once the first node has its children
      rw [Nat.zero_mul, Nat.add_zero]
      apply List.ext_getElem (by simp)
      intro j hj hj'
      have hlt : t.size + j < (t.addChildren s labels).size := by
        rw [size_addChildren hs]
        omega
      have hkeep := (grows_attachLevels _ (List.range' (s + 1) m) [labels]).labelAt_eq hlt
      rw [List.getElem_map, List.getElem_range'_1]
      exact hkeep.trans (labelAt_addChildren_new hs hj')
    | succ i =>
      -- a later block is one of those below the later nodes
      have hblock : t.size + (i + 1) * labels.length =
          (t.addChildren s labels).size + i * labels.length := by
        rw [size_addChildren hs, Nat.succ_mul]
        omega
      rw [hblock]
      exact ih hsize (by omega)

/-- The new level is one of leaves. -/
theorem children_attachLevel_of_le {s m : Nat} (h : s + m = t.size)
    (hleaf : ∀ n, s ≤ n → t.children n = []) (labels : List String) (n : Nat) (hn : t.size ≤ n) :
    (t.attachLevel (List.range' s m) labels).children n = [] := by
  rw [children_attachLevel_range (Nat.le_of_eq h), if_neg (by omega), hleaf n (by omega)]

/-- A level below consecutive nodes adds as many nodes as it has labels, for each of them. -/
theorem size_attachLevel_range {s m : Nat} (h : s + m ≤ t.size) (labels : List String) :
    (t.attachLevel (List.range' s m) labels).size = t.size + m * labels.length := by
  have hlt : ∀ n ∈ List.range' s m, n < t.size := by
    intro n hn
    have := (List.mem_range'_1.1 hn).2
    omega
  rw [size_attachLevel hlt, List.length_range']

/-! ## All levels -/

/-- The levels after the first one hang below it: what comes before has its children already. -/
theorem children_attachLevels_of_lt {s m : Nat} (h : s + m = t.size) {n : Nat} (hn : n < s)
    (choices : List (List String)) :
    (t.attachLevels (List.range' s m) choices).children n = t.children n := by
  -- every later frontier lies behind the one before it
  induction choices generalizing t s m with
  | nil => rfl
  | cons labels rest ih =>
    have hsize := size_attachLevel_range (Nat.le_of_eq h) labels
    rw [attachLevels, List.length_range', ih hsize.symm (by omega),
      children_attachLevel_range (Nat.le_of_eq h), if_neg (by omega)]

/-- After the first level has been attached below consecutive last nodes, its nodes are consecutive
last nodes themselves. -/
theorem attachLevels_range_cons {s m : Nat} (labels : List String) (rest : List (List String)) :
    t.attachLevels (List.range' s m) (labels :: rest) =
      (t.attachLevel (List.range' s m) labels).attachLevels
        (List.range' t.size (m * labels.length)) rest := by
  rw [attachLevels, List.length_range']

/-- The children of a frontier node, when all levels are attached, are those of the first level. -/
theorem children_attachLevels_frontier {s m : Nat} (h : s + m = t.size) (labels : List String)
    (rest : List (List String)) {n : Nat} (hn : s ≤ n ∧ n < s + m) (hleaf : t.children n = []) :
    (t.attachLevels (List.range' s m) (labels :: rest)).children n =
      List.range' (t.size + (n - s) * labels.length) labels.length := by
  have hsize := size_attachLevel_range (Nat.le_of_eq h) labels
  rw [attachLevels_range_cons, children_attachLevels_of_lt hsize.symm (by omega),
    children_attachLevel_range (Nat.le_of_eq h), if_pos hn, hleaf, List.nil_append]

/-- The blocks of children below the frontier are the next frontier. -/
theorem flatMap_children_attachLevels {s m : Nat} (h : s + m = t.size)
    (hleaf : ∀ n, s ≤ n → t.children n = []) (labels : List String) (rest : List (List String)) :
    ((List.range' s m).flatMap (t.attachLevels (List.range' s m) (labels :: rest)).children) =
      List.range' t.size (m * labels.length) := by
  rw [← List.flatMap_range'_blocks t.size labels.length s m]
  refine List.flatMap_congr fun n hn => ?_
  have hn := List.mem_range'_1.1 hn
  exact children_attachLevels_frontier h labels rest hn (hleaf n hn.1)

/-- At and below each node of the frontier stands the product of the levels. -/
theorem labelled_attachLevels {s m : Nat} (h : s + m = t.size)
    (hleaf : ∀ n, s ≤ n → t.children n = []) (choices : List (List String)) {n : Nat}
    (hn : s ≤ n ∧ n < s + m) :
    (t.attachLevels (List.range' s m) choices).labelled n =
      Rose.product (t.labelAt n) choices := by
  -- over the levels; the frontier of each is the block of nodes that the one before has added
  induction choices generalizing t s m n with
  | nil =>
    rw [attachLevels, labelled_eq, hleaf n hn.1]
    rfl
  | cons labels rest ih =>
    have hsize := size_attachLevel_range (Nat.le_of_eq h) labels
    have hleaf' := children_attachLevel_of_le h hleaf labels
    have hblock := map_labelAt_attachLevel (Nat.le_of_eq h) labels
      (show n - s < m by omega)
    rw [labelled_eq, (grows_attachLevels t _ _).labelAt_eq (by omega),
      children_attachLevels_frontier h labels rest hn (hleaf n hn.1), Rose.product]
    congr 1
    -- read the labels of the level off the block of children below `n`
    conv_rhs => rw [← hblock]
    rw [List.map_map]
    apply List.map_congr_left
    intro c hc
    -- a child of `n` is in the frontier from which the later levels are attached
    have hnext : c ∈ List.range' t.size (m * labels.length) := by
      rw [← List.flatMap_range'_blocks t.size labels.length s m]
      exact List.mem_flatMap.2 ⟨n, List.mem_range'_1.2 hn, hc⟩
    rw [attachLevels_range_cons, ih hsize.symm hleaf' (List.mem_range'_1.1 hnext),
      Function.comp_apply]

/-- Level after level, the nodes from the frontier on stand in the order of their handles. -/
theorem flatten_levelsFrom_attachLevels {s m : Nat} (h : s + m = t.size)
    (hleaf : ∀ n, s ≤ n → t.children n = []) (choices : List (List String)) :
    ((t.attachLevels (List.range' s m) choices).levelsFrom (List.range' s m)).flatten =
      List.range' s ((t.attachLevels (List.range' s m) choices).size - s) := by
  induction choices generalizing t s m with
  | nil =>
    have hm : t.size - s = m := by omega
    rw [attachLevels, hm]
    by_cases hzero : m = 0
    · subst hzero
      rfl
    · -- nothing is attached, so the frontier is the last level
      have hbelow : (List.range' s m).flatMap t.children = [] := by
        rw [List.flatMap_eq_nil_iff]
        exact fun n hn => hleaf n (List.mem_range'_1.1 hn).1
      rw [levelsFrom_eq_cons (List.range'_ne_nil_iff s |>.2 hzero), hbelow]
      simp
  -- the frontier is `[s, t.size)`, and what is added below it starts at `t.size`
  | cons labels rest ih =>
    have hsize := size_attachLevel_range (Nat.le_of_eq h) labels
    have hleaf' := children_attachLevel_of_le h hleaf labels
    have hrest := ih hsize.symm hleaf'
    have hle := (grows_attachLevels t (List.range' s m) (labels :: rest)).size_le
    rw [← attachLevels_range_cons] at hrest
    by_cases hzero : m = 0
    · -- an empty frontier stays empty, so nothing is added
      subst hzero
      rw [Nat.zero_mul] at hrest
      have hempty := List.range'_eq_nil_iff.1 hrest.symm
      have hs : (t.attachLevels (List.range' s 0) (labels :: rest)).size - s = 0 := by omega
      rw [hs]
      rfl
    · -- the next frontier starts where this one ends
      rw [levelsFrom_eq_cons (List.range'_ne_nil_iff s |>.2 hzero),
        flatMap_children_attachLevels h hleaf, List.flatten_cons, hrest, ← h, List.range'_append_1]
      congr 1
      omega

/-! ## Products -/

/-- A lone root is one node. -/
theorem size_ofRoot (label : String) : (ofRoot label).size = 1 := rfl

/-- A lone root has no children. -/
theorem children_ofRoot (label : String) (n : Nat) : (ofRoot label).children n = [] := by
  cases n <;> simp [children, node?, ofRoot, Node.leaf]

/-- A product starts with the root as its only frontier. -/
theorem product_eq (root : String) (choices : List (List String)) :
    product root choices = (ofRoot root).attachLevels (List.range' 0 1) choices := rfl

/-- The stored product is the product as an ordered tree. -/
theorem labelled_product (root : String) (choices : List (List String)) :
    (product root choices).labelled 0 = Rose.product root choices := by
  have hsize : 0 + 1 = (ofRoot root).size := (size_ofRoot root).symm
  rw [product_eq]
  exact labelled_attachLevels hsize (fun n _ => children_ofRoot root n) choices (by omega)

/-- A product has a root at least. -/
theorem size_product_pos (root : String) (choices : List (List String)) :
    0 < (product root choices).size :=
  Nat.lt_of_lt_of_le Nat.one_pos (grows_attachLevels (ofRoot root) [0] choices).size_le

/-- The root of a product is its first node. -/
theorem root?_product (root : String) (choices : List (List String)) :
    (product root choices).root? = some 0 := by
  rw [root?_eq, if_neg (Nat.ne_of_gt (size_product_pos root choices))]

/-- The nodes of a product were added level by level and from left to right. -/
theorem breadthFirst_product (root : String) (choices : List (List String)) :
    (product root choices).breadthFirst = List.range (product root choices).size := by
  have hsize : 0 + 1 = (ofRoot root).size := (size_ofRoot root).symm
  rw [breadthFirst, levels_eq, root?_product, List.range_eq_range', product_eq]
  exact flatten_levelsFrom_attachLevels hsize (fun n _ => children_ofRoot root n) choices

/-- The children of a node at which a product stands are labelled with its first choices. -/
theorem childLabels_of_labelled {n : Nat} {a : String} {choices : List (List String)}
    (h : t.labelled n = Rose.product a choices) : t.childLabels n = choices.headD [] := by
  rw [childLabels_eq, h]
  cases choices with
  | nil => rfl
  | cons choice rest => simp [Rose.product, Rose.children, Function.comp_def]

/-- Where a product without choices stands, nothing is below. -/
theorem children_of_labelled_nil {n : Nat} {a : String} (h : t.labelled n = Rose.product a []) :
    t.children n = [] := by
  rw [labelled_eq, Rose.product, Rose.node.injEq] at h
  exact List.map_eq_nil_iff.1 h.2

/-- Below a node at which a product stands stand products of its later levels. -/
theorem exists_labelled_child {n c : Nat} {a : String} {choice : List String}
    {rest : List (List String)} (h : t.labelled n = Rose.product a (choice :: rest))
    (hc : c ∈ t.children n) : ∃ b, t.labelled c = Rose.product b rest := by
  rw [labelled_eq, Rose.product, Rose.node.injEq] at h
  have hmem : t.labelled c ∈ choice.map fun b => Rose.product b rest :=
    h.2 ▸ List.mem_map_of_mem hc
  obtain ⟨b, -, hb⟩ := List.mem_map.1 hmem
  exact ⟨b, hb.symm⟩

/-- At and below a node at depth `d` of a product stands the product of the levels from `d` on. -/
theorem Linked.exists_labelled_eq_product (hl : t.Linked) {root : String}
    {choices : List (List String)} (h : t.labelled 0 = Rose.product root choices) {n : Nat}
    (hn : n < t.size) : (t.ancestors n).length ≤ choices.length ∧
      ∃ a, t.labelled n = Rose.product a (choices.drop (t.ancestors n).length) := by
  -- going down one step drops one level of choices
  induction n, hn using hl.node_induction with
  | root _ =>
    rw [ancestors_zero]
    exact ⟨Nat.zero_le _, root, h⟩
  | child p n _ hmem ih =>
    obtain ⟨-, a, ha⟩ := ih
    rw [hl.depth_child hmem]
    cases hdrop : choices.drop (t.ancestors p).length with
    | nil =>
      -- the parent stands at the last depth, where no node has children
      rw [hdrop] at ha
      rw [children_of_labelled_nil ha] at hmem
      exact absurd hmem List.not_mem_nil
    | cons choice rest =>
      have hpos : (t.ancestors p).length < choices.length := by
        by_contra hle
        rw [List.drop_of_length_le (Nat.le_of_not_lt hle)] at hdrop
        exact nomatch hdrop
      have hrest : choices.drop ((t.ancestors p).length + 1) = rest := by
        rw [← List.tail_drop, hdrop, List.tail_cons]
      rw [hdrop] at ha
      rw [hrest]
      exact ⟨hpos, exists_labelled_child ha hmem⟩

/-- In a product the nodes of one depth have the same child labels. -/
theorem Linked.childLabels_eq_of_depth_eq (hl : t.Linked) {root : String}
    {choices : List (List String)} (h : t.labelled 0 = Rose.product root choices) {m n : Nat}
    (hm : m < t.size) (hn : n < t.size)
    (hdepth : (t.ancestors m).length = (t.ancestors n).length) :
    t.childLabels m = t.childLabels n := by
  obtain ⟨-, a, ha⟩ := hl.exists_labelled_eq_product h hm
  obtain ⟨-, b, hb⟩ := hl.exists_labelled_eq_product h hn
  rw [childLabels_of_labelled ha, childLabels_of_labelled hb, hdepth]

/-- The child labels of a node of a product are one of the choices, if there are any. -/
theorem childLabels_product (root : String) (choices : List (List String)) (n : Nat) :
    (product root choices).childLabels n = [] ∨
      (product root choices).childLabels n ∈ choices := by
  have hl := linked_product root choices
  by_cases hn : n < (product root choices).size
  · obtain ⟨-, a, ha⟩ := hl.exists_labelled_eq_product (labelled_product root choices) hn
    rw [childLabels_of_labelled ha]
    cases hdrop : choices.drop ((product root choices).ancestors n).length with
    | nil => exact .inl rfl
    | cons choice rest => exact .inr (List.mem_of_mem_drop (hdrop ▸ List.mem_cons_self))
  · -- an unknown handle has no children
    left
    rw [childLabels, children, node?_eq_none (Nat.le_of_not_lt hn)]
    rfl

/-! ## Expansions -/

/-- A level with tokens has labels. -/
theorem combinationLabels_ne_nil {tokens : List String} (h : tokens ≠ []) :
    combinationLabels tokens ≠ [] := by
  obtain ⟨token, htoken⟩ := List.exists_mem_of_ne_nil tokens h
  have hmem : ∃ c ∈ combinations tokens, c.members = [token] := by
    rw [mem_combinations_iff]
    simpa using htoken
  obtain ⟨c, hc, -⟩ := hmem
  exact List.ne_nil_of_mem (List.mem_map_of_mem hc)

/-- So do all levels of a path structure, each with a token at least. -/
theorem forall_combinationLabels_ne_nil {below : List Level}
    (h : ∀ level ∈ below, level.tokens ≠ []) :
    ∀ choice ∈ below.map (fun level => combinationLabels level.tokens), choice ≠ [] := by
  intro choice hchoice
  obtain ⟨level, hlevel, rfl⟩ := List.mem_map.1 hchoice
  exact combinationLabels_ne_nil (h level hlevel)

/-- A text that expands has one root token, its tree is the product of its levels, and none of them
is without labels. -/
theorem exists_product_of_expand {policy : Policy} {path : String}
    (h : policy.expand path = .ok t) :
    ∃ root label below, PathStructure.parse policy.strict path = .ok (root :: below) ∧
      root.tokens = [label] ∧
      t = product label (below.map fun level => combinationLabels level.tokens) ∧
      ∀ choice ∈ below.map (fun level => combinationLabels level.tokens), choice ≠ [] := by
  obtain ⟨levels, hparse, hlevels⟩ := Policy.expand_eq_ok_iff.1 h
  obtain ⟨root, label, below, rfl, hroot, -, -, rfl⟩ := Policy.expandLevels_eq_ok_iff.1 hlevels
  refine ⟨root, label, below, hparse, hroot, rfl, forall_combinationLabels_ne_nil ?_⟩
  intro level hlevel
  exact PathStructure.tokens_ne_nil_of_parse hparse (List.mem_cons_of_mem root hlevel)

/-- Paths are written with a slash before each label. -/
theorem ofSegments_eq (segments : List String) :
    PathStructure.ofSegments segments = String.join (segments.map ("/" ++ ·)) := rfl

/-- The tree of a path structure is the product of its levels.  With the combination labels of each
level below the root as `choices`, a node at depth `d` has the children `choices[d]`, and one at the
last depth none; breadth-first order is the order of insertion; and the leaves have the paths of all
tuples of choices, the last level varying fastest. -/
theorem expand_product {policy : Policy} {path : String} (h : policy.expand path = .ok t) :
    ∃ root label below choices,
      PathStructure.parse policy.strict path = .ok (root :: below) ∧ root.tokens = [label] ∧
      choices = below.map (fun level => combinationLabels level.tokens) ∧
      t.shape? = some (Rose.product label choices) ∧
      (∀ n, t.contains n → (t.ancestors n).length ≤ choices.length ∧
        t.childLabels n = choices.getD (t.ancestors n).length [] ∧
        ((t.ancestors n).length = choices.length → t.children n = [])) ∧
      t.breadthFirst = List.range t.size ∧
      t.leafPaths = (Rose.tuples choices).map fun labels =>
        String.join ((label :: labels).map ("/" ++ ·)) := by
  obtain ⟨root, label, below, hparse, hroot, rfl, hne⟩ := exists_product_of_expand h
  refine ⟨root, label, below, _, hparse, hroot, rfl, ?_⟩
  generalize (below.map fun level => combinationLabels level.tokens) = choices at hne ⊢
  -- from here on only the product matters, not where its choices come from
  have hl := linked_product label choices
  have hlabelled := labelled_product label choices
  refine ⟨?_, ?_, breadthFirst_product label choices, ?_⟩
  · rw [shape?_eq, root?_product, Option.map_some, hlabelled]
  · intro n hn
    obtain ⟨hle, a, ha⟩ := hl.exists_labelled_eq_product hlabelled (contains_iff.1 hn)
    refine ⟨hle, ?_, fun hlast => ?_⟩
    · rw [childLabels_of_labelled ha, List.headD_eq_head?_getD, List.head?_drop, List.getD]
    · rw [hlast, List.drop_length] at ha
      exact children_of_labelled_nil ha
  · rw [hl.leafPaths_eq (size_product_pos label choices), hlabelled,
      Rose.leafWays_product label hne, List.map_map]
    rfl

/-- Two levels below the root, the first with its alternatives out of order. -/
theorem expand_product_home :
    Policy.expand {} "/home/b|a/c" = .ok (product "home" [["a", "b", "a-b"], ["c"]]) ∧
    (product "home" [["a", "b", "a-b"], ["c"]]).breadthFirst = List.range 7 ∧
    (product "home" [["a", "b", "a-b"], ["c"]]).leafPaths =
      ["/home/a/c", "/home/b/c", "/home/a-b/c"] := by
  have h : Policy.expand {} "/home/b|a/c" = .ok (product "home" [["a", "b", "a-b"], ["c"]]) := by
    cbv
  have hread : PathStructure.parse false "/home/b|a/c" =
      .ok [⟨0, ["home"]⟩, ⟨1, ["b", "a"]⟩, ⟨2, ["c"]⟩] := by cbv
  obtain ⟨root, label, below, choices, hparse, hroot, rfl, -, -, hbreadth, hleaves⟩ :=
    expand_product h
  -- the theorem speaks of the levels that are read, which are these
  obtain ⟨rfl, rfl⟩ := List.cons.inj (Except.ok.inj (hread.symm.trans hparse))
  obtain ⟨rfl, -⟩ := List.cons.inj hroot
  have htuples : Rose.tuples (([⟨1, ["b", "a"]⟩, ⟨2, ["c"]⟩] : List Level).map fun level =>
      combinationLabels level.tokens) = [["a", "c"], ["b", "c"], ["a-b", "c"]] := by cbv
  rw [htuples] at hleaves
  exact ⟨h, hbreadth, hleaves⟩

end ComboTree.Tree
