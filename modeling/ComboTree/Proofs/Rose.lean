import ComboTree.Tree.Rose
import Mathlib.Data.List.Basic
import Mathlib.Data.List.MinMax
import Mathlib.Order.Nat

/-!
# Levels, ways and products of ordered trees

The levels of a forest are its roots, then the levels of the forest of their subtrees: what
`levels` says by recursion on one tree is the level by level walk (`forestLevels_eq_cons`).

`product` is the tree in which every node at one depth has the same choices below it.  Its ways from
the root to the leaves are the tuples of choices, the last one varying fastest.

## Key results

- `forestLevels_eq_cons`: one step of the walk by levels
- `length_levels`, `nil_not_mem_levels`: the levels are as many as the tree is high, and none empty
- `height_lt_of_mem`, `height_node_le`: a tree is higher than what is below its root, by one
- `levels_perm_preorder`: both walks meet the same values, each as often
- `map_levels`, `map_preorder`: both walks commute with relabelling
- `leafWays_product`: the ways to the leaves of a product are the tuples in order
- `map_tail_levels_product`: below the root, each level of a product repeats its choices
-/

namespace ComboTree.Rose

variable {α β : Type}

/-! ## Levels of a forest -/

/-- The levels of several trees side by side. -/
def forestLevels (ts : List (Rose α)) : List (List α) :=
  (ts.map levels).foldr beside []

/-- No tree has no levels. -/
@[simp] theorem forestLevels_nil : forestLevels ([] : List (Rose α)) = [] := rfl

/-- A tree has its root as its first level and then those of the forest below. -/
theorem levels_eq_cons (a : α) (ts : List (Rose α)) :
    (node a ts).levels = [a] :: forestLevels ts :=
  levels_node a ts

/-- Nothing is added to the levels by an empty forest. -/
@[simp] theorem beside_nil (xs : List (List α)) : beside xs [] = xs := by
  cases xs <;> rfl

/-- Levels may be put side by side in any grouping. -/
theorem beside_assoc (xs ys zs : List (List α)) :
    beside (beside xs ys) zs = beside xs (beside ys zs) := by
  -- the recursion goes down all three at once, and stops where one of them ends
  induction xs generalizing ys zs with
  | nil => rfl
  | cons x xs ih =>
    cases ys with
    | nil => rfl
    | cons y ys =>
      cases zs with
      | nil => rfl
      | cons z zs => simp [beside, ih]

/-- The levels of a forest are those of its first tree, continued by those of the others. -/
theorem forestLevels_cons (t : Rose α) (ts : List (Rose α)) :
    forestLevels (t :: ts) = beside t.levels (forestLevels ts) := rfl

/-- Two forests side by side. -/
theorem forestLevels_append (ss ts : List (Rose α)) :
    forestLevels (ss ++ ts) = beside (forestLevels ss) (forestLevels ts) := by
  induction ss with
  | nil => rfl
  | cons s ss ih => rw [List.cons_append, forestLevels_cons, ih, forestLevels_cons, beside_assoc]

/-- The first level of a forest holds its roots; the others are the levels of what is below. -/
theorem forestLevels_eq_cons {ts : List (Rose α)} (h : ts ≠ []) :
    forestLevels ts = ts.map value :: forestLevels (ts.flatMap children) := by
  induction ts with
  | nil => exact absurd rfl h
  | cons t ts ih =>
    obtain ⟨a, us⟩ := t
    rw [forestLevels_cons, levels_eq_cons, List.map_cons, List.flatMap_cons, forestLevels_append]
    -- a forest of one tree, or one whose other trees have a first level too
    cases ts with
    | nil => simp [value, children]
    | cons t ts =>
      rw [ih (List.cons_ne_nil t ts)]
      rfl

/-! ## The number of levels -/

/-- Side by side there are as many levels as in the higher forest. -/
theorem length_beside (xs ys : List (List α)) :
    (beside xs ys).length = max xs.length ys.length := by
  induction xs generalizing ys with
  | nil => simp [beside]
  | cons x xs ih =>
    cases ys with
    | nil => simp
    | cons y ys => simp only [beside, List.length_cons, ih, Nat.succ_max_succ]

/-- There are as many levels as the tree is high. -/
theorem length_levels (t : Rose α) : t.levels.length = t.height := by
  induction t using induction with
  | node a ts ih =>
    rw [levels_eq_cons, height_node, List.length_cons, Nat.add_comm]
    congr 1
    -- the trees below, one after the other
    induction ts with
    | nil => rfl
    | cons t ts ihs =>
      rw [forestLevels_cons, length_beside, ih t List.mem_cons_self,
        ihs fun u hu => ih u (List.mem_cons_of_mem t hu)]
      rfl

/-- A tree is higher than those below its root. -/
theorem height_lt_of_mem {t : Rose α} {ts : List (Rose α)} (h : t ∈ ts) (a : α) :
    t.height < (node a ts).height := by
  have hmax : t.height ≤ (ts.map height).foldr max 0 :=
    List.le_max_of_le (List.mem_map_of_mem h) (Nat.le_refl _)
  rw [height_node]
  omega

/-- It is higher than the highest of them by one. -/
theorem height_node_le {ts : List (Rose α)} {k : Nat} (h : ∀ t ∈ ts, t.height ≤ k) (a : α) :
    (node a ts).height ≤ k + 1 := by
  have hmax : (ts.map height).foldr max 0 ≤ k :=
    List.max_le_of_forall_le _ _ (List.forall_mem_map.2 h)
  rw [height_node]
  omega

/-- No level gets lost by putting forests side by side, so none becomes empty. -/
theorem nil_not_mem_beside {xs ys : List (List α)} (hx : [] ∉ xs) (hy : [] ∉ ys) :
    [] ∉ beside xs ys := by
  induction xs generalizing ys with
  | nil => exact hy
  | cons x xs ih =>
    cases ys with
    | nil => exact hx
    | cons y ys =>
      rw [List.mem_cons, not_or] at hx hy
      have hrest := ih hx.2 hy.2
      have hx1 : x ≠ [] := fun e => hx.1 e.symm
      simp [beside, hx1, hrest]

/-- No level is empty. -/
theorem nil_not_mem_levels (t : Rose α) : [] ∉ t.levels := by
  induction t using induction with
  | node a ts ih =>
    rw [levels_eq_cons]
    refine List.not_mem_cons_of_ne_of_not_mem (List.cons_ne_nil a []).symm ?_
    -- the trees below, one after the other
    induction ts with
    | nil => exact List.not_mem_nil
    | cons t ts ihs =>
      rw [forestLevels_cons]
      exact nil_not_mem_beside (ih t List.mem_cons_self)
        (ihs fun u hu => ih u (List.mem_cons_of_mem t hu))

/-! ## The same values by levels and in pre-order -/

/-- Side by side stand the values of both. -/
theorem flatten_beside_perm (xs ys : List (List α)) :
    (beside xs ys).flatten.Perm (xs.flatten ++ ys.flatten) := by
  induction xs generalizing ys with
  | nil => rfl
  | cons x xs ih =>
    cases ys with
    | nil => simp
    | cons y ys =>
      simp only [beside, List.flatten_cons, List.append_assoc]
      refine List.Perm.append_left x ?_
      -- the first level of the second forest is brought to the front
      calc y ++ (beside xs ys).flatten
          _ |>.Perm (y ++ (xs.flatten ++ ys.flatten)) := (ih ys).append_left y
          _ |>.Perm (xs.flatten ++ (y ++ ys.flatten)) := by
            rw [← List.append_assoc, ← List.append_assoc]
            exact List.perm_append_comm.append_right _

/-- The walk by levels meets what the walk in pre-order meets. -/
theorem levels_perm_preorder (t : Rose α) : t.levels.flatten.Perm t.preorder := by
  induction t using induction with
  | node a ts ih =>
    rw [levels_eq_cons, preorder_node, List.flatten_cons, List.singleton_append, List.perm_cons]
    -- the trees below, one after the other
    induction ts with
    | nil => rfl
    | cons t ts ihs =>
      rw [forestLevels_cons, List.flatMap_cons]
      refine (flatten_beside_perm _ _).trans (List.Perm.append (ih t List.mem_cons_self) ?_)
      exact ihs fun u hu => ih u (List.mem_cons_of_mem t hu)

/-! ## Relabelling -/

/-- Relabelling goes through level by level. -/
theorem map_beside (f : α → β) (xs ys : List (List α)) :
    (beside xs ys).map (List.map f) = beside (xs.map (List.map f)) (ys.map (List.map f)) := by
  induction xs generalizing ys with
  | nil => rfl
  | cons x xs ih =>
    cases ys with
    | nil => rfl
    | cons y ys => simp [beside, ih]

/-- The levels of a relabelled tree are the relabelled levels. -/
theorem map_levels (f : α → β) (t : Rose α) : (t.map f).levels = t.levels.map (List.map f) := by
  induction t using induction with
  | node a ts ih =>
    rw [map_node, levels_eq_cons, levels_eq_cons, List.map_cons, List.map_singleton]
    congr 1
    -- the trees below, one after the other
    induction ts with
    | nil => rfl
    | cons t ts ihs =>
      rw [List.map_cons, forestLevels_cons, forestLevels_cons, map_beside,
        ih t List.mem_cons_self, ihs fun u hu => ih u (List.mem_cons_of_mem t hu)]

/-- The pre-order of a relabelled tree is the relabelled pre-order. -/
theorem map_preorder (f : α → β) (t : Rose α) : (t.map f).preorder = t.preorder.map f := by
  induction t using induction with
  | node a ts ih =>
    rw [map_node, preorder_node, preorder_node, List.map_cons, List.flatMap_map, List.map_flatMap,
      List.flatMap_congr ih]

/-- The root is relabelled like every other value. -/
theorem value_map (f : α → β) (t : Rose α) : (t.map f).value = f t.value := by
  cases t
  rw [map_node]
  rfl

/-- Relabelling twice is relabelling once. -/
theorem map_map {γ : Type} (g : β → γ) (f : α → β) (t : Rose α) :
    (t.map f).map g = t.map (g ∘ f) := by
  induction t using induction with
  | node a ts ih =>
    rw [map_node, map_node, map_node, List.map_map]
    congr 1
    apply List.map_congr_left
    intro u hu
    exact ih u hu

/-! ## Ways to the leaves -/

/-- The values on the way to each leaf, the root's first, leaves from left to right. -/
def leafWays : Rose α → List (List α)
  | node a ts => if ts.isEmpty then [[a]] else (ts.flatMap leafWays).map (a :: ·)

/-- All ways to choose one value from each list, the last choice varying fastest. -/
def tuples : List (List α) → List (List α)
  | [] => [[]]
  | choice :: rest => choice.flatMap fun a => (tuples rest).map (a :: ·)

/-- The tree in which each node at depth `d` has the values `choices[d]` below it. -/
def product (a : α) : List (List α) → Rose α
  | [] => node a []
  | choice :: rest => node a (choice.map fun b => product b rest)

/-- Without children the root is the only leaf. -/
theorem leafWays_nil (a : α) : (node a []).leafWays = [[a]] := by
  rw [leafWays]
  rfl

/-- With children, each way to a leaf goes on from the root. -/
theorem leafWays_of_ne_nil (a : α) {ts : List (Rose α)} (h : ts ≠ []) :
    (node a ts).leafWays = (ts.flatMap leafWays).map (a :: ·) := by
  rw [leafWays, if_neg (by simpa using h)]

/-- The root of a product is the value that was asked for. -/
@[simp] theorem value_product (a : α) (choices : List (List α)) :
    (product a choices).value = a := by
  cases choices <;> rfl

/-- The ways to the leaves of a product are the tuples of its choices. -/
theorem leafWays_product (a : α) {choices : List (List α)} (h : ∀ choice ∈ choices, choice ≠ []) :
    (product a choices).leafWays = (tuples choices).map (a :: ·) := by
  induction choices generalizing a with
  | nil => exact leafWays_nil a
  | cons choice rest ih =>
    -- a product with a level to come has children, so its root is no leaf
    have hne : choice.map (product · rest) ≠ [] := by
      simpa using h choice List.mem_cons_self
    have hrest := fun b => ih b fun c hc => h c (List.mem_cons_of_mem choice hc)
    rw [product, leafWays_of_ne_nil a hne, List.flatMap_map, tuples]
    simp only [hrest]

/-! ## Levels of a product -/

/-- Products without choices have one level, their roots. -/
theorem forestLevels_map_product_nil {as : List α} (h : as ≠ []) :
    forestLevels (as.map (product · [])) = [as] := by
  have hbelow : (as.map (product · [])).flatMap children = [] := by
    simp [List.flatMap_map, product, children]
  rw [forestLevels_eq_cons (by simpa using h), hbelow, List.map_map]
  simp [Function.comp_def]

/-- Below the roots stand the choices, once for each root. -/
theorem forestLevels_map_product_cons {as : List α} (h : as ≠ []) (choice : List α)
    (rest : List (List α)) :
    forestLevels (as.map (product · (choice :: rest))) =
      as :: forestLevels ((as.flatMap fun _ => choice).map (product · rest)) := by
  have hbelow : (as.map (product · (choice :: rest))).flatMap children =
      (as.flatMap fun _ => choice).map (product · rest) := by
    simp [List.flatMap_map, List.map_flatMap, product, children]
  rw [forestLevels_eq_cons (by simpa using h), hbelow, List.map_map]
  simp [Function.comp_def]

/-- A function of lists that repetition does not change has one value for a level of a product and
for the choices that the level repeats. -/
theorem map_forestLevels_product {γ : Type} {f : List α → γ}
    (hf : ∀ as labels : List α, as ≠ [] → f (as.flatMap fun _ => labels) = f labels)
    {choices : List (List α)} (h : ∀ choice ∈ choices, choice ≠ []) {as : List α} (has : as ≠ []) :
    (forestLevels (as.map (product · choices))).map f = f as :: choices.map f := by
  -- the roots of one level are the choices of the level before, hence any list of roots
  induction choices generalizing as with
  | nil =>
    rw [forestLevels_map_product_nil has]
    rfl
  | cons choice rest ih =>
    have hchoice : choice ≠ [] := h choice List.mem_cons_self
    -- the next level repeats `choice`, and so is not empty either
    have hnext : (as.flatMap fun _ => choice) ≠ [] := by
      obtain ⟨a, ha⟩ := List.exists_mem_of_ne_nil as has
      obtain ⟨b, hb⟩ := List.exists_mem_of_ne_nil choice hchoice
      exact List.ne_nil_of_mem (List.mem_flatMap.2 ⟨a, ha, hb⟩)
    rw [forestLevels_map_product_cons has, List.map_cons,
      ih (fun c hc => h c (List.mem_cons_of_mem choice hc)) hnext, hf as choice has, List.map_cons]

/-- The same for one product, whose first level is its root. -/
theorem map_tail_levels_product {γ : Type} {f : List α → γ}
    (hf : ∀ as labels : List α, as ≠ [] → f (as.flatMap fun _ => labels) = f labels)
    {choices : List (List α)} (h : ∀ choice ∈ choices, choice ≠ []) (a : α) :
    (product a choices).levels.tail.map f = choices.map f := by
  -- one tree is a forest of one
  have hforest : (product a choices).levels = forestLevels ([a].map (product · choices)) := by
    rw [List.map_singleton, forestLevels_cons, forestLevels_nil, beside_nil]
  have hmap := map_forestLevels_product hf h (List.cons_ne_nil a [])
  rw [List.map_tail, hforest, hmap, List.tail_cons]

end ComboTree.Rose
