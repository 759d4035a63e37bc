/-!
# Ordered trees as data

`Rose α` is a value with an ordered list of subtrees.  The traversals of a stored tree are defined
here once, by recursion on that shape.

* `preorder`  a node, then each child's subtree, left to right
* `levels`  the nodes of each depth, left to right
* `height`  the number of levels
* `drawing`  one line of text per node, in pre-order, with guides that show the depth

Each comes with its equation at a node (`preorder_node`, `levels_node`, `height_node`,
`drawing_node`), and `induction` proves a property of a tree from that of its subtrees.
-/

namespace ComboTree

/-- A value with an ordered list of subtrees. -/
inductive Rose (α : Type) where
  | node (value : α) (children : List (Rose α))
deriving Repr

namespace Rose

variable {α β : Type}

/-- The value at the root. -/
def value : Rose α → α
  | node a _ => a

/-- The subtrees below the root. -/
def children : Rose α → List (Rose α)
  | node _ ts => ts

instance [Inhabited α] : Inhabited (Rose α) := ⟨node default []⟩

/-- A property of every tree whose subtrees all have it is a property of every tree. -/
theorem induction {motive : Rose α → Prop}
    (node : ∀ a ts, (∀ t ∈ ts, motive t) → motive (node a ts)) : ∀ t, motive t
  | .node a ts => node a ts fun t _ => induction node t

/-- The same shape with `f` applied to every value. -/
def map (f : α → β) : Rose α → Rose β
  | node a ts => node (f a) (ts.map (map f))

/-- `map` at a node. -/
@[simp] theorem map_node (f : α → β) (a : α) (ts : List (Rose α)) :
    (node a ts).map f = node (f a) (ts.map (map f)) := by
  rw [map]

/-- The values of a tree, each before those below it, subtrees from left to right. -/
def preorder : Rose α → List α
  | node a ts => a :: ts.flatMap preorder

/-- `preorder` at a node. -/
@[simp] theorem preorder_node (a : α) (ts : List (Rose α)) :
    (node a ts).preorder = a :: ts.flatMap preorder := by
  rw [preorder]

/-- The number of nodes on a longest way down from the root. -/
def height : Rose α → Nat
  | node _ ts => 1 + (ts.map height).foldr max 0

/-- `height` at a node. -/
@[simp] theorem height_node (a : α) (ts : List (Rose α)) :
    (node a ts).height = 1 + (ts.map height).foldr max 0 := by
  rw [height]

/-! ## Levels -/

/-- The levels of two forests side by side: each level of the first, continued by the second's. -/
def beside : List (List α) → List (List α) → List (List α)
  | [], ys => ys
  | xs, [] => xs
  | x :: xs, y :: ys => (x ++ y) :: beside xs ys

/-- The values of each depth from the root's down, each level from left to right. -/
def levels : Rose α → List (List α)
  | node a ts => [a] :: (ts.map levels).foldr beside []

/-- `levels` at a node: its own value, and below it the children's levels side by side. -/
@[simp] theorem levels_node (a : α) (ts : List (Rose α)) :
    (node a ts).levels = [a] :: (ts.map levels).foldr beside [] := by
  rw [levels]

/-! ## Drawing -/

/-- The lines for a tree whose root's line starts with `lead` and whose other lines start with
`indent`: the last child hangs on a corner and the others on a tee, and a bar runs down beside
everything that stands between two children of one node. -/
def drawing (lead indent : String) : Rose String → List String
  | node label ts =>
    (lead ++ label) ::
      (ts.dropLast.attach.flatMap fun t => drawing (indent ++ "├── ") (indent ++ "│   ") t.1) ++
      ts.getLast?.attach.toList.flatMap fun t => drawing (indent ++ "└── ") (indent ++ "    ") t.1
termination_by t => t
decreasing_by
  · -- both lists of subtrees are parts of `ts`
    have h := List.sizeOf_lt_of_mem ((List.dropLast_sublist ts).subset t.2)
    simp only [node.sizeOf_spec]
    omega
  · have h := List.sizeOf_lt_of_mem (List.mem_of_getLast? t.2)
    simp only [node.sizeOf_spec]
    omega

/-- `drawing` at a node, without the proofs of membership that its recursion carries. -/
theorem drawing_node (lead indent label : String) (ts : List (Rose String)) :
    drawing lead indent (node label ts) =
      (lead ++ label) ::
        (ts.dropLast.flatMap (drawing (indent ++ "├── ") (indent ++ "│   ")) ++
          ts.getLast?.toList.flatMap (drawing (indent ++ "└── ") (indent ++ "    "))) := by
  rw [drawing]
  simp only [List.cons_append, List.flatMap_subtype, List.unattach_attach]
  cases ts.getLast? <;> simp

end Rose

end ComboTree
