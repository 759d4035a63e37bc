import ComboTree.Proofs.Lookup

/-!
# Paths and look-ups undo each other

A path is written on the way up, along parent links, and it is looked up on the way down, along first
children with the next label.  The node that a look-up finds has the path that was looked up, in any
tree that calls lead to.  That the path of a node leads back to it takes labels that tell nodes
apart: none may hold the character that separates them in a path, and no two children of one node
may be labelled alike.  Then paths and nodes correspond one to one.

## Key results

- `Linked.path?_of_nodeAtPath?`: from a path to a node and back
- `Unambiguous.nodeAtPath?_path?_self`: from a node to its path and back
- `unambiguous_of_expand`: expansions in the strict form of the notation
- `nodeAtPath?_path?_inverse`: paths and look-ups
-/

namespace ComboTree.Tree

open PathStructure (ofSegments Segmented)

variable {t : Tree} {n : Nat}

/-- No label holds a slash, and no two children of one node have the same label. -/
structure Unambiguous (t : Tree) : Prop where
  no_slash : ∀ n label, t.label? n = some label → '/' ∉ label.toList
  siblings_differ : ∀ n, ∀ a ∈ t.children n, ∀ b ∈ t.children n, t.label? a = t.label? b → a = b

/-! ## From paths to nodes and back -/

/-- What a look-up finds has the path that was looked up. -/
theorem Linked.path?_of_nodeAtPath? (hl : t.Linked) {path : String}
    (h : t.nodeAtPath? path = some n) : t.path? n = some path := by
  obtain ⟨labels, hsegmented, hwalk⟩ := nodeAtPath?_eq_some_iff.1 h
  obtain ⟨hn, hway⟩ := hl.way_of_walk? hwalk
  rw [path?_eq_way hn, hway, hsegmented.text]
  rfl

/-! ## From nodes to paths and back -/

/-- Siblings differ just when no label occurs twice among the children of a node. -/
theorem Linked.nodup_childLabels_iff (hl : t.Linked) : (t.childLabels n).Nodup ↔
    ∀ a ∈ t.children n, ∀ b ∈ t.children n, t.label? a = t.label? b → a = b := by
  have hlabel : ∀ c ∈ t.children n, t.label? c = some (t.labelAt c) :=
    fun c hc => label?_eq_some (mem_children_bounds hc).2
  rw [childLabels_eq_map]
  -- no child is listed twice, so a label that occurs twice is that of two nodes
  constructor
  · intro hnodup a ha b hb heq
    rw [hlabel a ha, hlabel b hb, Option.some.injEq] at heq
    exact List.inj_on_of_nodup_map hnodup ha hb heq
  · intro hdiffer
    refine (hl.nodup_children n).map_on fun a ha b hb heq => hdiffer a ha b hb ?_
    rw [hlabel a ha, hlabel b hb, heq]

/-- The way to a node is cut where it was joined. -/
theorem Unambiguous.segmented_way (h : t.Unambiguous) (hn : n < t.size) :
    Segmented (ofSegments (t.way n)) (t.way n) where
  ne_nil := way_ne_nil t n
  no_slash := by
    intro label hlabel
    obtain ⟨m, hm, rfl⟩ := mem_way hlabel hn
    exact h.no_slash m _ (label?_eq_some hm)
  text := rfl

/-- The path of a node leads back to the node. -/
theorem Unambiguous.nodeAtPath?_path?_self (h : t.Unambiguous) (hl : t.Linked) {path : String}
    (hpath : t.path? n = some path) : t.nodeAtPath? path = some n := by
  by_cases hn : n < t.size
  · rw [path?_eq_way hn, Option.some.injEq] at hpath
    rw [← hpath, nodeAtPath?_eq_walk? (h.segmented_way hn)]
    exact hl.walk?_way (fun n => hl.nodup_childLabels_iff.2 (h.siblings_differ n)) hn
  · -- a handle that names no node has no path
    rw [path?, if_neg (mt contains_iff.1 hn)] at hpath
    cases hpath

/-- Labels of an expansion hold no slash, and in the strict form of the notation no two combinations
of the tokens of a level have the same label. -/
theorem unambiguous_of_expand {policy : Policy} {path : String} (h : policy.expand path = .ok t)
    (hstrict : policy.strict = true) : t.Unambiguous := by
  have hnav := navigable_expand h
  constructor
  · intro n label hlabel
    have hn : n < t.size := label?_isSome_iff.1 (by rw [hlabel]; rfl)
    rw [label?_eq_some hn, Option.some.injEq] at hlabel
    rw [← hlabel]
    exact (hnav.isToken n hn).no_slash
  · intro n
    exact hnav.linked.nodup_childLabels_iff.1 (nodup_childLabels_of_expand h hstrict n)

/-! ## One to one -/

/-- In every tree that calls lead to, a node that is found by its path has that path.  If the labels
hold no slash and siblings differ, a path leads to a node just when it is the node's path; so no two
nodes have the same path, and the path of each leads back to it.  Expansions in the strict form of
the notation are such trees. -/
theorem nodeAtPath?_path?_inverse (h : t.Reachable) :
    (∀ path n, t.nodeAtPath? path = some n → t.path? n = some path) ∧
    (t.Unambiguous →
      (∀ path n, t.nodeAtPath? path = some n ↔ t.path? n = some path) ∧
      (∀ m n, t.contains m → t.contains n → t.path? m = t.path? n → m = n) ∧
      ∀ n, t.contains n → (t.path? n).bind t.nodeAtPath? = some n) ∧
    ∀ (policy : Policy) path u, policy.strict = true → policy.expand path = .ok u →
      u.Unambiguous := by
  have hl := h.linked
  refine ⟨fun path n => hl.path?_of_nodeAtPath?, fun hdistinct => ?_,
    fun policy path u hstrict hu => unambiguous_of_expand hu hstrict⟩
  -- with both directions for single nodes, the correspondence is a matter of rewriting
  have hback : ∀ {path n}, t.path? n = some path → t.nodeAtPath? path = some n :=
    hdistinct.nodeAtPath?_path?_self hl
  refine ⟨fun path n => ⟨hl.path?_of_nodeAtPath?, hback⟩, ?_, ?_⟩
  · intro m n hm _ hsame
    -- the one path leads to both
    have hpath := path?_eq_way (contains_iff.1 hm)
    have hfound := hback (hsame ▸ hpath)
    rw [hback hpath] at hfound
    exact Option.some.inj hfound
  · intro n hn
    have hpath := path?_eq_way (contains_iff.1 hn)
    rw [hpath, Option.bind_some, hback hpath]

/-- A tree with two children labelled alike, where the path of the second one leads to the first;
and an expansion in the strict form of the notation. -/
theorem nodeAtPath?_path?_inverse_home :
    let twins := (ofRoot "home").afterEdits [.addChild 0 "a", .addChild 0 "a"]
    let strict := product "home" [["a", "b", "a-b"], ["c"]]
    (twins.path? 2 = some "/home/a" ∧ twins.nodeAtPath? "/home/a" = some 1 ∧
      twins.path? 1 = some "/home/a") ∧
    Policy.expand { strict := true } "/home/a|b/c" = .ok strict ∧
    strict.path? 6 = some "/home/a-b/c" ∧ strict.nodeAtPath? "/home/a-b/c" = some 6 := by
  intro twins strict
  have hfound : twins.nodeAtPath? "/home/a" = some 1 := by unfold twins; cbv
  have hsecond : twins.path? 2 = some "/home/a" := by
    have hway : twins.way 2 = ["home", "a"] := by unfold twins; cbv
    rw [path?_eq_way (by unfold twins; decide +kernel), hway]
    rfl
  have hexpand : Policy.expand { strict := true } "/home/a|b/c" = .ok strict := by
    unfold strict; cbv
  have hpath : strict.path? 6 = some "/home/a-b/c" := by
    have hway : strict.way 6 = ["home", "a-b", "c"] := by unfold strict; cbv
    rw [path?_eq_way (by unfold strict; decide +kernel), hway]
    rfl
  have htwins := (nodeAtPath?_path?_inverse (t := twins) ⟨_, _, .ofRoot "home", rfl⟩).1
  obtain ⟨-, hone, hstrict⟩ := nodeAtPath?_path?_inverse (Initial.expand hexpand).reachable
  have hdistinct : strict.Unambiguous := hstrict { strict := true } _ _ rfl hexpand
  exact ⟨⟨hsecond, hfound, htwins _ _ hfound⟩, hexpand, hpath,
    ((hone hdistinct).1 _ _).2 hpath⟩

end ComboTree.Tree
