import ComboTree.Proofs.Lineage
import ComboTree.Proofs.Traversals

/-!
# Above and below, by parent links and by child lists

Whether a node is above another one, and what the path of a node is, is read off parent links, from
the node up.  Every traversal goes down, along child lists.  In a tree that calls lead to both say
the same: the nodes above `n` are those from which children of children lead to `n`, and the labels
of a path are those met on the one chain of children from the root to `n`.

Being above is therefore a strict order in which the nodes above one node stand in a row, and the
path of a node goes on from the paths of all nodes above it.

## Key results

- `ofSegments_append`, `ofSegments_cons`: what stands in a path after its beginning
- `Linked.path?_of_below`: the path of a node above, continued
- `Linked.existsUnique_descent`: the one chain to a node, and what is written along it
- `ancestryAgrees_of_reachable`: ancestors and paths, seen from above
-/

namespace ComboTree

namespace PathStructure

/-- The path of two lists of segments is that of the first, continued by that of the second. -/
theorem ofSegments_append (first second : List String) :
    ofSegments (first ++ second) = ofSegments first ++ ofSegments second := by
  rw [ofSegments, List.map_append, String.join_append]
  rfl

/-- The first segment stands between its slash and the others. -/
theorem ofSegments_cons (segment : String) (rest : List String) :
    ofSegments (segment :: rest) = "/" ++ (segment ++ ofSegments rest) := by
  rw [ofSegments, List.map_cons, String.join_cons, String.append_assoc]
  rfl

end PathStructure

namespace Tree

open PathStructure (ofSegments)

variable {t : Tree} {a b n : Nat}

/-! ## Paths -/

/-- The path of a node is that of any node above it, a slash, and something more. -/
theorem Linked.path?_of_below (hl : t.Linked) (h : t.Below a n) :
    ∃ above rest, t.path? a = some above ∧ t.path? n = some (above ++ "/" ++ rest) := by
  obtain ⟨labels, hway⟩ := hl.way_prefix_of_below h
  have hdepth := hl.depth_lt_of_below h
  -- the way to `n` is longer, as `n` is deeper
  cases labels with
  | nil =>
    have hlength := congrArg List.length hway
    rw [List.append_nil, length_way, length_way] at hlength
    omega
  | cons label labels =>
    refine ⟨_, label ++ ofSegments labels, path?_eq_way h.lt_size, ?_⟩
    rw [path?_eq_way h.lower_lt_size, ← hway, PathStructure.ofSegments_append,
      PathStructure.ofSegments_cons, String.append_assoc]

/-! ## Chains -/

/-- One chain of children leads from the root to a node, and its labels are those of the path. -/
theorem Linked.existsUnique_descent (hl : t.Linked) (hn : t.contains n) :
    ∃ chain, (∀ other, t.Descent other n ↔ other = chain) ∧
      ∃ labels, chain.map t.label? = labels.map some ∧ t.path? n = some (ofSegments labels) := by
  have hn' := contains_iff.1 hn
  -- the lineage is read off parent links, and it is the one chain of children to `n`
  refine ⟨t.lineage n, ?_, t.way n, map_label?_lineage hn', path?_eq_way hn'⟩
  intro other
  rw [hl.descent_iff, eq_comm (a := other)]
  exact and_iff_right hn

/-! ## Both directions -/

/-- What is found by going up is what going down leads to. -/
structure AncestryAgrees (t : Tree) : Prop where
  isAncestor_iff : ∀ a n, t.isAncestor a n ↔ t.contains a ∧ t.contains n ∧
    Relation.TransGen (fun p c => c ∈ t.children p) a n
  irrefl : ∀ n, ¬ t.isAncestor n n
  trans : ∀ a b n, t.isAncestor a b → t.isAncestor b n → t.isAncestor a n
  unknown : ∀ a n, ¬ t.contains a ∨ ¬ t.contains n → ¬ t.isAncestor a n
  comparable : ∀ a b n, t.isAncestor a n → t.isAncestor b n →
    a = b ∨ t.isAncestor a b ∨ t.isAncestor b a
  /-- One chain of children leads from the root to a node, and a path writes the labels on it. -/
  path_along_chain : ∀ n, t.contains n → ∃ chain, (∀ other, t.Descent other n ↔ other = chain) ∧
    ∃ labels, chain.map t.label? = labels.map some ∧ t.path? n = some (ofSegments labels)
  path_continues : ∀ a n, t.isAncestor a n →
    ∃ above rest, t.path? a = some above ∧ t.path? n = some (above ++ "/" ++ rest)

/-- In every tree that calls lead to, and for all handles, known or not, going up finds what going
down leads to. -/
theorem ancestryAgrees_of_reachable (h : t.Reachable) : t.AncestryAgrees := by
  have hl := h.linked
  -- with the way up replaced by chains of children, each part is a fact about these
  have hiff : ∀ a n, t.isAncestor a n ↔ t.Below a n := fun a n => hl.isAncestor_iff_below
  constructor
  case isAncestor_iff =>
    intro a n
    rw [hiff]
    constructor
    · intro hbelow
      exact ⟨contains_iff.2 hbelow.lt_size, contains_iff.2 hbelow.lower_lt_size, hbelow⟩
    · exact fun hboth => hboth.2.2
  case irrefl =>
    intro n
    rw [hiff]
    intro hbelow
    exact Nat.lt_irrefl _ (hl.depth_lt_of_below hbelow)
  case trans =>
    simp only [hiff]
    exact fun a b n => Relation.TransGen.trans
  case unknown =>
    intro a n hunknown
    rw [hiff]
    intro hbelow
    rcases hunknown with ha | hn
    · exact ha (contains_iff.2 hbelow.lt_size)
    · exact hn (contains_iff.2 hbelow.lower_lt_size)
  case comparable =>
    simp only [hiff]
    exact fun a b n => hl.comparable_of_below
  case path_along_chain => exact fun n => hl.existsUnique_descent
  case path_continues =>
    simp only [hiff]
    exact fun a n => hl.path?_of_below

/-- Two children with one label have one path, which that of the grandchild continues, but only one
of them is above the grandchild, and one chain leads there. -/
theorem ancestryAgrees_twins :
    let t := (ofRoot "home").afterEdits [.addChild 0 "a", .addChild 0 "a", .addChild 2 "b"]
    (t.path? 1 = some "/home/a" ∧ t.path? 2 = some "/home/a" ∧ t.path? 3 = some "/home/a/b") ∧
    Relation.TransGen (fun p c => c ∈ t.children p) 2 3 ∧
    ¬ Relation.TransGen (fun p c => c ∈ t.children p) 1 3 ∧
    (∀ chain, t.Descent chain 3 ↔ chain = [0, 2, 3]) ∧ ¬ t.isAncestor 2 9 := by
  intro t
  have ht : t.Reachable := ⟨_, _, .ofRoot "home", rfl⟩
  have hagree := ancestryAgrees_of_reachable ht
  have hsize : t.size = 4 := by unfold t; cbv
  have habove : t.isAncestor 2 3 = true := by unfold t; cbv
  have hbeside : t.isAncestor 1 3 = false := by unfold t; cbv
  have hlineage : t.lineage 3 = [0, 2, 3] := by unfold t; cbv
  have hpaths : t.path? 1 = some "/home/a" ∧ t.path? 2 = some "/home/a" ∧
      t.path? 3 = some "/home/a/b" := by
    have hways : t.way 1 = ["home", "a"] ∧ t.way 2 = ["home", "a"] ∧
        t.way 3 = ["home", "a", "b"] := by
      unfold t
      refine ⟨?_, ?_, ?_⟩ <;> cbv
    rw [path?_eq_way (by omega), path?_eq_way (by omega), path?_eq_way (by omega), hways.1,
      hways.2.1, hways.2.2]
    exact ⟨rfl, rfl, rfl⟩
  have hknown : ∀ n < 4, t.contains n := fun n hn => contains_iff.2 (hsize ▸ hn)
  refine ⟨hpaths, ((hagree.isAncestor_iff 2 3).1 habove).2.2, ?_, ?_, ?_⟩
  · intro hchain
    have hfound := (hagree.isAncestor_iff 1 3).2 ⟨hknown 1 (by decide), hknown 3 (by decide), hchain⟩
    exact Bool.false_ne_true (hbeside.symm.trans hfound)
  · have hdescent := ht.linked.descent_lineage (hknown 3 (by decide))
    obtain ⟨chain, hchain, -⟩ := hagree.path_along_chain 3 (hknown 3 (by decide))
    rw [hlineage, hchain] at hdescent
    rwa [hdescent]
  · exact hagree.unknown 2 9 (.inr (by rw [contains_iff, hsize]; decide))

end Tree

end ComboTree
