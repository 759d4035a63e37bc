import ComboTree.Combination
import ComboTree.Tree.Walk

/-!
# Building and extending combination trees

A `Policy` says what is accepted: the form of the notation, how many alternatives one level may
have and how many nodes an expansion may have.  `Policy.expand` turns a path structure into its
tree: every node at depth `d` gets one child per combination of the alternatives at depth `d + 1`.
The nodes are added level by level and from left to right.

`Policy.insert` adds children below one node of a tree, which the other segments of its path name
label by label.  It looks and checks first and adds last, so a fault leaves nothing half done.

* `size_attachLevel`  what one level adds
-/

namespace ComboTree

open Text (joined)
open PathStructure (segments tokens alternativeSeparator)

/-- What an expansion accepts. -/
structure Policy where
  /-- Whether tokens must be free of the member separator. -/
  strict : Bool := false
  /-- The most distinct alternatives in one level; the levels multiply, see `maxNodes`. -/
  maxAlternatives : Nat := 12
  /-- The most nodes of an expanded tree. -/
  maxNodes : Nat := 1000000
deriving DecidableEq, Repr, Inhabited

/-! ## Attaching levels -/

namespace Tree

/-- The same labels below each node of `frontier` in turn. -/
def attachLevel (t : Tree) (frontier : List Nat) (labels : List String) : Tree :=
  frontier.foldl (fun t n => t.addChildren n labels) t

/-- One level after the other, the first below `frontier` and each below all of the one before. -/
def attachLevels (t : Tree) (frontier : List Nat) : List (List String) → Tree
  | [] => t
  | labels :: rest =>
    let next := List.range' t.size (frontier.length * labels.length)
    (t.attachLevel frontier labels).attachLevels next rest

/-- The tree in which every node at depth `d` has the labels `choices[d]` below it. -/
def product (root : String) (choices : List (List String)) : Tree :=
  (ofRoot root).attachLevels [0] choices

/-- A level adds one node per label below each node of the frontier. -/
theorem size_attachLevel {t : Tree} {frontier : List Nat} (h : ∀ n ∈ frontier, n < t.size)
    (labels : List String) :
    (t.attachLevel frontier labels).size = t.size + frontier.length * labels.length := by
  induction frontier generalizing t with
  | nil => simp [attachLevel]
  | cons n ns ih =>
    have hn : n < t.size := h n (List.mem_cons_self ..)
    -- the rest of the frontier is still in the tree after the first node has its children
    have hns : ∀ m ∈ ns, m < (t.addChildren n labels).size := by
      intro m hm
      have := h m (List.mem_cons_of_mem _ hm)
      rw [size_addChildren hn]
      omega
    have := ih hns
    simp only [attachLevel, List.foldl_cons, List.length_cons] at this ⊢
    rw [this, size_addChildren hn, Nat.succ_mul]
    omega

end Tree

/-! ## Counting ahead -/

/-- The largest node count that is told apart from larger ones. -/
def largestCount : Nat := UInt64.size - 1

/-- The nodes of a tree whose levels below the root multiply by `widths`, or `largestCount` if
that is less: `1 + w₁ + w₁ * w₂ + …`. -/
def countNodes (widths : List Nat) : Nat :=
  let step := fun (width, count) w =>
    let width := min (width * w) largestCount
    (width, min (count + width) largestCount)
  (widths.foldl step (1, 1)).2

/-! ## Expansion -/

namespace Policy

/-- The labels that the tokens of one level stand for. -/
def labelsOf (policy : Policy) (tokens : List String) : Except Fault (List String) :=
  (combinationsWithin policy.maxAlternatives tokens).map (List.map Combination.label)

/-- The tree of the given levels, whose depths are not looked at. -/
def expandLevels (policy : Policy) (levels : List Level) : Except Fault Tree :=
  match levels with
  | [] => .error .noLevels
  | root :: below =>
    match root.tokens with
    | [] => .error .noLevels
    | [label] => do
      let choices ← below.mapM fun level => policy.labelsOf level.tokens
      let count := countNodes (choices.map List.length)
      if policy.maxNodes < count then
        .error (.tooManyNodes count policy.maxNodes)
      else
        .ok (Tree.product label choices)
    | several => .error (.rootAlternatives (joined alternativeSeparator several))

/-- The tree of a path structure. -/
def expand (policy : Policy) (path : String) : Except Fault Tree := do
  policy.expandLevels (← PathStructure.parse policy.strict path)

end Policy

/-! ## Insertion -/

/-- What the last segment of an inserted path adds. -/
inductive InsertMode where
  /-- One child per token. -/
  | literal
  /-- One child per combination of the tokens. -/
  | combination
deriving DecidableEq, Repr, Inhabited

namespace Policy

/-- The node that all segments of `path` but the last lead to, taken as plain labels, and the
tokens of the last one. -/
def locate (policy : Policy) (t : Tree) (path : String) : Except Fault (Nat × List String) := do
  let all ← segments path
  match all.dropLast, all.getLast? with
  | rootLabel :: below, some last =>
    let added ← tokens policy.strict path (below.length + 1) last
    let missing := fun label => Fault.parentNotFound path label
    match t.root? with
    | none => .error (missing rootLabel)
    | some root =>
      if t.label? root = some rootLabel then
        let parent ← (t.follow root below).mapError missing
        return (parent, added)
      else
        .error (missing rootLabel)
  | _, _ => .error (.malformedPath path .noParentSegment)

/-- The labels that the tokens of an inserted segment stand for. -/
def insertedLabels (policy : Policy) (mode : InsertMode) (tokens : List String) :
    Except Fault (List String) :=
  match mode with
  | .literal => .ok tokens
  | .combination => policy.labelsOf tokens

/-- New children below the node that `path` names, with their handles in order. -/
def insert (policy : Policy) (mode : InsertMode) (t : Tree) (path : String) :
    Except Fault (List Nat × Tree) := do
  let (parent, added) ← policy.locate t path
  let labels ← policy.insertedLabels mode added
  return (List.range' t.size labels.length, t.addChildren parent labels)

/-- The given insertions one after the other, up to the first that fails. -/
def insertAll (policy : Policy) (mode : InsertMode) (t : Tree) (paths : List String) :
    Except Fault Tree :=
  paths.foldlM (fun t path => (policy.insert mode t path).map Prod.snd) t

end Policy

end ComboTree
