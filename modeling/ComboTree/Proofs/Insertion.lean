import ComboTree.Proofs.Expansion
import ComboTree.Proofs.Labels
import ComboTree.Proofs.Ways

/-!
# What an insertion does

An insertion that succeeds adds children below the node that all segments of its path but the last
lead to, and nothing else; the inversion lemmas here say which path, which node and which labels.
The labels that expansions and insertions give to nodes are tokens themselves, at least in the form
of the notation that allows dashes, so a path of such labels is cut where it was joined.

## Key results

- `locate_eq_of_walk?`, `locate_eq_ok_iff`: the node below which is inserted
- `insert_eq_ok_iff`, `insertAll_cons_eq_ok_iff`: insertions that succeed
- `insertAll_grows`, `insert_ne_parentNotFound`: what they keep, and what is left to fail
- `isToken_of_mem_combinationLabels`, `isToken_of_insertedLabels`: labels are tokens
-/

namespace ComboTree

open PathStructure (segments tokens IsToken Segmented)

namespace Policy

variable {policy : Policy} {t : Tree} {path : String}

/-! ## The parent -/

/-- Looking for the parent: the last segment first, and then the walk along the others. -/
theorem locate_eq {root last : String} {below : List String}
    (h : segments path = .ok (root :: below ++ [last])) :
    policy.locate t path = (do
      let added ← tokens policy.strict path (below.length + 1) last
      match t.root? with
      | none => .error (.parentNotFound path root)
      | some n =>
        if t.label? n = some root then
          let parent ← (t.follow n below).mapError fun label => Fault.parentNotFound path label
          return (parent, added)
        else .error (.parentNotFound path root)) := by
  rw [locate, h]
  conv_lhs => simp only [bind, Except.bind, List.dropLast_concat, List.getLast?_concat]
  rfl

/-- Where the walk along all segments but the last ends, there the children are added. -/
theorem locate_eq_of_walk? {above : List String} {last : String} {parent : Nat}
    (h : segments path = .ok (above ++ [last])) (hwalk : t.walk? above = some parent) :
    policy.locate t path =
      (tokens policy.strict path above.length last).map fun added => (parent, added) := by
  -- a walk along no segments finds nothing, so there is a root segment
  cases above with
  | nil => exact nomatch hwalk
  | cons root below =>
    obtain ⟨hpos, hroot, hdescend⟩ := Tree.walk?_cons_eq_some_iff.1 hwalk
    have hfollow := Tree.follow_eq_ok_iff.2 hdescend
    rw [locate_eq h, Tree.root?_eq, if_neg (by omega), List.length_cons]
    cases tokens policy.strict path (below.length + 1) last with
    | error e => rfl
    | ok added => simp [bind, Except.bind, pure, Except.pure, Except.map, Except.mapError, hroot,
        hfollow]

/-- A parent that is found is where the walk along all segments but the last ends. -/
theorem walk?_of_locate {root last : String} {below : List String}
    (h : segments path = .ok (root :: below ++ [last])) {parent : Nat} {added : List String}
    (hlocate : policy.locate t path = .ok (parent, added)) :
    t.walk? (root :: below) = some parent ∧
      tokens policy.strict path (below.length + 1) last = .ok added := by
  rw [locate_eq h] at hlocate
  obtain ⟨added', htokens, hlocate⟩ := Except.bind_eq_ok_iff.1 hlocate
  rw [Tree.root?_eq] at hlocate
  -- the checks one by one: a tree with a root, a root with the label, children all the way
  by_cases hsize : t.size = 0
  · simp [hsize] at hlocate
  · rw [if_neg hsize] at hlocate
    dsimp only at hlocate
    split at hlocate
    · rename_i hroot
      obtain ⟨parent', hfollow, hlocate⟩ := Except.bind_eq_ok_iff.1 hlocate
      obtain ⟨rfl, rfl⟩ := Prod.mk.inj (Except.ok.inj hlocate)
      rw [Except.mapError_eq_ok_iff, Tree.follow_eq_ok_iff] at hfollow
      have hpos := Nat.pos_of_ne_zero hsize
      exact ⟨Tree.walk?_cons_eq_some_iff.2 ⟨hpos, hroot, hfollow⟩, htokens⟩
    · cases hlocate

/-- The parent is found by a walk along all segments but the last, of which there is at least one,
and the last one offers tokens. -/
theorem locate_eq_ok_iff {parent : Nat} {added : List String} :
    policy.locate t path = .ok (parent, added) ↔ ∃ above last,
      segments path = .ok (above ++ [last]) ∧ t.walk? above = some parent ∧
      tokens policy.strict path above.length last = .ok added := by
  constructor
  · intro hlocate
    cases hsegs : segments path with
    | error e =>
      rw [locate, hsegs] at hlocate
      exact nomatch hlocate
    | ok segs =>
      obtain ⟨_, _, rfl, -, -, -⟩ := PathStructure.segments_eq_ok_iff.1 hsegs
      -- a path has a first segment, so it also has a last one
      obtain ⟨above, last, hconcat⟩ := (List.eq_nil_or_concat' (_ :: _)).resolve_left
        (List.cons_ne_nil _ _)
      rw [hconcat] at hsegs ⊢
      cases above with
      | nil =>
        -- with the root segment alone there is no parent to look for
        rw [locate, hsegs] at hlocate
        exact nomatch hlocate
      | cons root below =>
        obtain ⟨hwalk, htokens⟩ := walk?_of_locate hsegs hlocate
        exact ⟨root :: below, last, rfl, hwalk, htokens⟩
  · rintro ⟨above, last, hsegs, hwalk, htokens⟩
    rw [locate_eq_of_walk? hsegs hwalk, htokens]
    rfl

/-- An insertion that succeeds adds the labels below the node that the walk ends at. -/
theorem insert_eq_ok_iff {mode : InsertMode} {handles : List Nat} {u : Tree} :
    policy.insert mode t path = .ok (handles, u) ↔ ∃ above last parent added labels,
      segments path = .ok (above ++ [last]) ∧ t.walk? above = some parent ∧
      tokens policy.strict path above.length last = .ok added ∧
      policy.insertedLabels mode added = .ok labels ∧
      handles = List.range' t.size labels.length ∧ u = t.addChildren parent labels := by
  constructor
  · intro h
    obtain ⟨⟨parent, added⟩, hlocate, h⟩ := Except.bind_eq_ok_iff.1 h
    obtain ⟨labels, hlabels, h⟩ := Except.bind_eq_ok_iff.1 h
    obtain ⟨above, last, hsegs, hwalk, htokens⟩ := locate_eq_ok_iff.1 hlocate
    obtain ⟨rfl, rfl⟩ := Prod.mk.inj (Except.ok.inj h)
    exact ⟨above, last, parent, added, labels, hsegs, hwalk, htokens, hlabels, rfl, rfl⟩
  · rintro ⟨above, last, parent, added, labels, hsegs, hwalk, htokens, hlabels, rfl, rfl⟩
    have hlocate : policy.locate t path = .ok (parent, added) :=
      locate_eq_ok_iff.2 ⟨above, last, hsegs, hwalk, htokens⟩
    exact Except.bind_eq_ok_iff.2 ⟨_, hlocate, Except.bind_eq_ok_iff.2 ⟨labels, hlabels, rfl⟩⟩

/-- A run of insertions succeeds when the first one does and then the others. -/
theorem insertAll_cons_eq_ok_iff {mode : InsertMode} {paths : List String} {u : Tree} :
    policy.insertAll mode t (path :: paths) = .ok u ↔ ∃ handles v,
      policy.insert mode t path = .ok (handles, v) ∧ policy.insertAll mode v paths = .ok u := by
  rw [insertAll, List.foldlM_cons, Except.bind_eq_ok_iff]
  cases policy.insert mode t path with
  | error e => simp [Except.map]
  | ok result =>
    obtain ⟨handles, v⟩ := result
    constructor
    · rintro ⟨_, hv, h⟩
      obtain rfl := Except.ok.inj hv
      exact ⟨handles, v, rfl, h⟩
    · rintro ⟨_, _, hv, h⟩
      obtain ⟨rfl, rfl⟩ := Prod.mk.inj (Except.ok.inj hv)
      exact ⟨v, rfl, h⟩

/-- Insertions make a tree grow. -/
theorem insertAll_grows {mode : InsertMode} {paths : List String} {u : Tree}
    (h : policy.insertAll mode t paths = .ok u) : t.Grows u := by
  -- every insertion starts from the tree that the one before it has left
  induction paths generalizing t with
  | nil =>
    obtain rfl := Except.ok.inj h
    exact Tree.Grows.refl t
  | cons path paths ih =>
    obtain ⟨handles, v, hinsert, h⟩ := insertAll_cons_eq_ok_iff.1 h
    obtain ⟨_, _, parent, _, labels, -, -, -, -, -, rfl⟩ := insert_eq_ok_iff.1 hinsert
    exact (Tree.grows_addChildren t parent labels).trans (ih h)

/-- Once its parent is found, an insertion can only fail for its last segment. -/
theorem insert_ne_parentNotFound {above : List String} {last : String} {parent : Nat}
    (h : segments path = .ok (above ++ [last])) (hwalk : t.walk? above = some parent)
    (mode : InsertMode) (path' component : String) :
    policy.insert mode t path ≠ .error (.parentNotFound path' component) := by
  have hslash := (PathStructure.segmented_of_segments h).no_slash last (by simp)
  intro hinsert
  -- a fault is one of the last segment's tokens, or of the number of its labels
  rcases Except.bind_eq_error_iff.1 hinsert with hlocate | ⟨⟨_, added⟩, -, hinsert⟩
  · rw [locate_eq_of_walk? h hwalk] at hlocate
    cases htokens : tokens policy.strict path above.length last with
    | ok added =>
      rw [htokens] at hlocate
      exact nomatch hlocate
    | error fault =>
      obtain ⟨_, _, _, _, -, -, -, rfl⟩ := (PathStructure.tokens_eq_error_iff hslash).1 htokens
      rw [htokens] at hlocate
      exact nomatch hlocate
  · rcases Except.bind_eq_error_iff.1 hinsert with hlabels | ⟨_, -, hinsert⟩
    · cases mode with
      | literal => exact nomatch hlabels
      | combination => exact nomatch (labelsOf_eq_error_iff.1 hlabels).2
    · exact nomatch hinsert

end Policy

/-! ## Labels -/

/-- A combination of tokens has a token for its label. -/
theorem isToken_of_mem_combinationLabels {strict : Bool} {ts : List String}
    (h : ∀ token ∈ ts, IsToken strict token) {label : String} (hl : label ∈ combinationLabels ts) :
    IsToken false label := by
  obtain ⟨c, hc, rfl⟩ := List.mem_map.1 hl
  obtain ⟨hne, -, hsub⟩ := mem_combinations_iff.1 ⟨c, hc, rfl⟩
  -- no member holds a separator, and the dash between members is none in the form with dashes
  obtain ⟨m, hm⟩ := List.exists_mem_of_ne_nil c.members hne
  have hmembers : ∀ m ∈ c.members, IsToken strict m := fun m hm => h m (hsub hm)
  exact ⟨Text.joined_ne_empty hm (hmembers m hm).ne_empty,
    Text.not_mem_toList_joined (by decide) fun m hm => (hmembers m hm).no_slash,
    Text.not_mem_toList_joined (by decide) fun m hm => (hmembers m hm).no_bar, nofun⟩

/-- The labels that an insertion adds are tokens. -/
theorem Policy.isToken_of_insertedLabels {policy : Policy} {mode : InsertMode} {strict : Bool}
    {added labels : List String} (h : policy.insertedLabels mode added = .ok labels)
    (hadded : ∀ token ∈ added, IsToken strict token) : ∀ label ∈ labels, IsToken false label := by
  cases mode with
  | literal =>
    obtain rfl := Except.ok.inj h
    exact fun label hlabel => (hadded label hlabel).lenient
  | combination =>
    obtain ⟨-, rfl⟩ := Policy.labelsOf_eq_ok_iff.1 h
    exact fun label hlabel => isToken_of_mem_combinationLabels hadded hlabel

end ComboTree
