import ComboTree.Operations
import ComboTree.Proofs.InPlace
import ComboTree.Proofs.NodeCount

/-!
# How far the node limit reaches

The nodes of an expansion are counted before any of them is made, and an expansion beyond the limit
is refused.  Insertions are not counted.  Each adds as many nodes as the alternatives of its last
segment stand for, so a tree with insertions is as large as its expansion and all that was added, and
the limit bounds it only by that much more.

## Key results

- `Policy.size_le_of_expand`: an expansion is within the limit
- `Policy.size_of_insert`, `Policy.size_of_insertAll`: what one insertion adds, and what a run adds
- `Settings.size_le_maxNodes`: both, for the trees that are handed out
- `Settings.insert_beyond_maxNodes`: insertions make a tree that is refused as an expansion
-/

namespace ComboTree

open PathStructure (Segmented Offers)

/-- How many nodes the alternatives of a last segment stand for. -/
def InsertMode.addedBy (mode : InsertMode) (alternatives : List String) : Nat :=
  match mode with
  | .literal => alternatives.toFinset.card
  | .combination => 2 ^ alternatives.toFinset.card - 1

/-- The last segment of `path` stands for `count` nodes. -/
def Adds (mode : InsertMode) (path : String) (count : Nat) : Prop :=
  ∃ above last alternatives, Segmented path (above ++ [last]) ∧ Offers last alternatives ∧
    mode.addedBy alternatives = count

namespace Policy

variable {policy : Policy} {mode : InsertMode} {t u : Tree}

/-- The nodes of an expansion are those counted ahead.  The count stops at the largest number of a
machine word, so as a limit that number bounds only trees whose size is one. -/
theorem size_le_of_expand {path : String} (h : policy.expand path = .ok t)
    (hcounted : policy.maxNodes < 2 ^ 64 - 1 ∨ t.size < 2 ^ 64) : t.size ≤ policy.maxNodes := by
  obtain ⟨levels, -, hlevels⟩ := expand_eq_ok_iff.1 h
  obtain ⟨_, below, -, -, -, hcount, hnodes⟩ :=
    expandLevels_eq_ok_iff_nodeCount.1 ⟨t, hlevels, rfl⟩
  -- a count that stopped is within no limit but the largest, and then the size is that number
  rw [← hnodes] at hcount
  omega

/-- The labels of a last segment are as many as its alternatives stand for, repetitions aside. -/
theorem length_insertedLabels {alternatives labels : List String}
    (h : policy.insertedLabels mode alternatives.eraseDups = .ok labels) :
    labels.length = mode.addedBy alternatives := by
  -- in both modes what counts is how many alternatives are distinct
  have hdistinct := List.length_eraseDups alternatives
  cases mode with
  | literal =>
    obtain rfl := Except.ok.inj h
    exact hdistinct
  | combination =>
    obtain ⟨-, hlength⟩ := segmentLabels_of_insertedLabels h (List.nodup_eraseDups alternatives)
    rw [hlength, hdistinct]
    rfl

/-- The combinations of one segment are bounded by the limit on alternatives. -/
theorem length_insertedLabels_le {added labels : List String}
    (h : policy.insertedLabels .combination added = .ok labels) :
    labels.length ≤ 2 ^ policy.maxAlternatives - 1 := by
  obtain ⟨hlimit, rfl⟩ := labelsOf_eq_ok_iff.1 h
  have hpow : 2 ^ added.toFinset.card ≤ 2 ^ policy.maxAlternatives :=
    Nat.pow_le_pow_right (by decide) hlimit
  rw [combinationLabels, List.length_map, length_combinations]
  omega

/-- The step: one insertion adds the nodes that its last segment stands for. -/
theorem size_of_insert {path : String} {handles : List Nat}
    (h : policy.insert mode t path = .ok (handles, u)) :
    ∃ count, Adds mode path count ∧ u.size = t.size + count ∧
      (mode = .combination → count ≤ 2 ^ policy.maxAlternatives - 1) := by
  obtain ⟨above, last, parent, added, labels, hsegs, hwalk, htokens, hlabels, -, rfl⟩ :=
    insert_eq_ok_iff.1 h
  have hsegmented := PathStructure.segmented_of_segments hsegs
  have hslash := hsegmented.no_slash last (by simp)
  obtain ⟨alternatives, hoffers, -, rfl⟩ := (PathStructure.tokens_eq_ok_iff_offers hslash).1 htokens
  refine ⟨labels.length, ?_, ?_, ?_⟩
  · exact ⟨above, last, alternatives, hsegmented, hoffers, (length_insertedLabels hlabels).symm⟩
  · exact Tree.size_addChildren (Tree.lt_size_of_walk? hwalk) labels
  · rintro rfl
    exact length_insertedLabels_le hlabels

/-- The run: insertions in a row add up. -/
theorem size_of_insertAll {paths : List String} (h : policy.insertAll mode t paths = .ok u) :
    ∃ counts, List.Forall₂ (Adds mode) paths counts ∧ u.size = t.size + counts.sum ∧
      (mode = .combination → ∀ count ∈ counts, count ≤ 2 ^ policy.maxAlternatives - 1) := by
  -- the tree is general, since each insertion starts from what the one before has made
  induction paths generalizing t with
  | nil =>
    obtain rfl := Except.ok.inj h
    exact ⟨[], .nil, rfl, fun _ => List.forall_mem_nil _⟩
  | cons path paths ih =>
    obtain ⟨handles, v, hinsert, hrest⟩ := insertAll_cons_eq_ok_iff.1 h
    obtain ⟨count, hadds, hsize, hlimit⟩ := size_of_insert hinsert
    obtain ⟨counts, hall, hsum, hlimits⟩ := ih hrest
    refine ⟨count :: counts, .cons hadds hall, ?_, ?_⟩
    · rw [List.sum_cons]
      omega
    · intro hmode
      exact List.forall_mem_cons.2 ⟨hlimit hmode, hlimits hmode⟩

end Policy

namespace Settings

/-- An expansion has no more nodes than the limit says, also for the largest limit of a machine word
if its nodes can be numbered in one.  A tree with insertions has the nodes of the expansion of `base`
and, for each path, those that its last segment stands for, which the limit does not bound: one for
each distinct alternative, or one for each set of them, where the limit on alternatives holds. -/
theorem size_le_maxNodes (s : Settings) :
    (∀ path t, s.expand path = .ok t → s.maxNodes < 2 ^ 64 - 1 ∨ t.size < 2 ^ 64 →
      t.size ≤ s.maxNodes) ∧
    ∀ mode base paths t, s.insert mode base paths = .ok t →
      ∃ start counts, s.expand base = .ok start ∧ List.Forall₂ (Adds mode) paths counts ∧
        t.size = start.size + counts.sum ∧
        (mode = .combination → ∀ count ∈ counts, count ≤ 2 ^ s.maxAlternatives - 1) ∧
        (s.maxNodes < 2 ^ 64 - 1 ∨ start.size < 2 ^ 64 → t.size ≤ s.maxNodes + counts.sum) := by
  constructor
  · intro path t h
    exact Policy.size_le_of_expand h
  · intro mode base paths t h
    obtain ⟨start, hstart, hinsert⟩ := Except.bind_eq_ok_iff.1 h
    obtain ⟨counts, hadds, hsize, hlimits⟩ := Policy.size_of_insertAll hinsert
    refine ⟨start, counts, hstart, hadds, hsize, hlimits, ?_⟩
    intro hcounted
    -- the limit is used on the expansion only, before any path is inserted
    have hle : start.size ≤ s.maxNodes := Policy.size_le_of_expand hstart hcounted
    omega

/-- An expansion that reaches the limit, and the same tree with three more nodes. -/
theorem size_le_maxNodes_home :
    (∃ t, Settings.expand { maxNodes := 4 } "/home/a|b" = .ok t ∧ t.size ≤ 4) ∧
    ∃ t start counts,
      Settings.insert { maxNodes := 4 } .combination "/home/a|b" ["/home/a/x|y"] = .ok t ∧
      Settings.expand { maxNodes := 4 } "/home/a|b" = .ok start ∧
      List.Forall₂ (Adds .combination) ["/home/a/x|y"] counts ∧
      t.size = start.size + counts.sum := by
  have hexpand : Settings.expand { maxNodes := 4 } "/home/a|b" =
      .ok (.product "home" [["a", "b", "a-b"]]) := by
    cbv
  have hinsert : Settings.insert { maxNodes := 4 } .combination "/home/a|b" ["/home/a/x|y"] =
      .ok ((Tree.product "home" [["a", "b", "a-b"]]).addChildren 1 ["x", "y", "x-y"]) := by
    cbv
  obtain ⟨hwithin, hadded⟩ := size_le_maxNodes { maxNodes := 4 }
  obtain ⟨start, counts, hstart, hadds, hsize, -⟩ := hadded _ _ _ _ hinsert
  exact ⟨⟨_, hexpand, hwithin _ _ hexpand (.inl (by decide))⟩,
    _, start, counts, hinsert, hstart, hadds, hsize⟩

/-- The tree of `/home/a|b` is refused as an expansion, and is handed out when its last level is
inserted. -/
theorem insert_beyond_maxNodes :
    Settings.expand { maxNodes := 3 } "/home/a|b" = .error (.tooManyNodes 4 3) ∧
    ∃ t, Settings.insert { maxNodes := 3 } .combination "/home" ["/home/a|b"] = .ok t ∧
      t = .product "home" [["a", "b", "a-b"]] ∧ ¬ t.size ≤ 3 := by
  have hinsert : Settings.insert { maxNodes := 3 } .combination "/home" ["/home/a|b"] =
      .ok (.product "home" [["a", "b", "a-b"]]) := by
    cbv
  exact ⟨by cbv, _, hinsert, rfl, by decide +kernel⟩

end Settings

end ComboTree
