import ComboTree.Combination
import ComboTree.Proofs.Lists
import Mathlib.Data.List.Sort
import Mathlib.Data.Nat.Choose.Basic

/-!
# Sets of tokens as ascending lists

A set of tokens has one strictly ascending member list, so "each set once" is said about member
lists.  `sublistsOfLength` lists the sets of one size, and `setsUpTo` strings the sizes together.

The sets of one size are also the sets that are one smaller, each with a later token added to it in
every way.  This is how a search that goes from size to size meets them for the first time.

## Key results

- `pairwise_distinctSorted`, `mem_distinctSorted`: the tokens a level really has, in order
- `mem_sublistsOfLength`: the enumeration is exact, the sublists of that length and no others
- `length_sublistsOfLength`, `pairwise_sublistsOfLength`: as many as a binomial coefficient says,
  in lexicographic order
- `sublistsOfLength_succ`: from one size to the next
- `exists_earlier`: a token added before the last member makes a set that an earlier set makes, too
-/

namespace ComboTree

/-! ## Distinct tokens -/

/-- Sorting and dropping runs keeps every token. -/
theorem mem_distinctSorted {token : String} {tokens : List String} :
    token ∈ distinctSorted tokens ↔ token ∈ tokens := by
  simp only [distinctSorted, Combination.ofMembers, List.mem_eraseReps, List.mem_mergeSort]

/-- No token is listed twice, and they ascend. -/
theorem pairwise_distinctSorted (tokens : List String) :
    (distinctSorted tokens).Pairwise (· < ·) :=
  List.pairwise_eraseReps (Combination.ofMembers tokens).sorted

/-- There are as many as the set of the tokens has elements. -/
theorem length_distinctSorted (tokens : List String) :
    (distinctSorted tokens).length = tokens.toFinset.card := by
  rw [← List.toFinset_card_of_nodup (pairwise_distinctSorted tokens).nodup]
  congr 1
  ext token
  simp [mem_distinctSorted]

/-- The distinct tokens in order depend only on which tokens there are. -/
theorem distinctSorted_congr {xs ys : List String} (h : ∀ token, token ∈ xs ↔ token ∈ ys) :
    distinctSorted xs = distinctSorted ys := by
  -- of two strictly ascending lists with the same entries there is only one
  refine (pairwise_distinctSorted xs).eq_of_mem_iff (pairwise_distinctSorted ys) fun token => ?_
  rw [mem_distinctSorted, mem_distinctSorted, h]

/-! ## Ascending lists -/

/-- A set whose members are all among the tokens is a sublist of them, as both lists ascend. -/
theorem sublist_of_subset {tokens ms : List String} (hms : ms.Pairwise (· < ·))
    (h : tokens.Pairwise (· < ·)) (hsub : ms ⊆ tokens) : ms.Sublist tokens :=
  List.sublist_of_subperm_of_pairwise (List.subperm_of_subset hms.nodup hsub) hms h

/-- A token put where it belongs keeps a list ascending. -/
theorem pairwise_insert {before after : List String} {token m : String}
    (h : (before ++ m :: after).Pairwise (· < ·)) (hbefore : ∀ b ∈ before, b < token)
    (hm : token < m) : (before ++ token :: m :: after).Pairwise (· < ·) := by
  obtain ⟨hfirst, hsecond, hacross⟩ := List.pairwise_append.1 h
  -- whatever stands after `m` comes after the token as well
  have hafter : ∀ t ∈ m :: after, token < t := by
    intro t ht
    rcases List.mem_cons.1 ht with rfl | ht
    · exact hm
    · exact lt_trans hm (List.rel_of_pairwise_cons hsecond ht)
  refine List.pairwise_append.2 ⟨hfirst, List.pairwise_cons.2 ⟨hafter, hsecond⟩, ?_⟩
  intro b hb t ht
  rcases List.mem_cons.1 ht with rfl | ht
  · exact hbefore b hb
  · exact hacross b hb t ht

/-! ## The sets of one size -/

/-- The sublists of `xs` with exactly `k` entries; those that keep an earlier entry come first. -/
def sublistsOfLength {α : Type} : Nat → List α → List (List α)
  | 0, _ => [[]]
  | _ + 1, [] => []
  | k + 1, x :: xs => (sublistsOfLength k xs).map (x :: ·) ++ sublistsOfLength (k + 1) xs

/-- All sublists of that length are listed, and nothing else is. -/
theorem mem_sublistsOfLength {α : Type} {k : Nat} {xs l : List α} :
    l ∈ sublistsOfLength k xs ↔ l.Sublist xs ∧ l.length = k := by
  induction xs generalizing k l with
  | nil =>
    cases k with
    | zero => simp [sublistsOfLength]
    | succ k => simp +contextual [sublistsOfLength]
  | cons x xs ih =>
    cases k with
    | zero =>
      simp only [sublistsOfLength, List.mem_singleton, List.length_eq_zero_iff]
      exact ⟨fun h => ⟨h ▸ List.nil_sublist _, h⟩, And.right⟩
    | succ k =>
      -- the first entry is kept, with a shorter sublist after it, or left out
      simp only [sublistsOfLength, List.mem_append, List.mem_map, ih, List.sublist_cons_iff]
      constructor
      · rintro (⟨r, ⟨hr, hk⟩, rfl⟩ | ⟨h, hk⟩)
        · exact ⟨.inr ⟨r, rfl, hr⟩, by simp [hk]⟩
        · exact ⟨.inl h, hk⟩
      · rintro ⟨h | ⟨r, rfl, hr⟩, hk⟩
        · exact .inr ⟨h, hk⟩
        · exact .inl ⟨r, ⟨hr, by simpa using hk⟩, rfl⟩

/-- The sets of size one are the single entries. -/
theorem sublistsOfLength_one {α : Type} (xs : List α) :
    sublistsOfLength 1 xs = xs.map ([·]) := by
  induction xs with
  | nil => rfl
  | cons x xs ih => simp [sublistsOfLength, ih]

/-- Pascal's rule: the sets with the first entry, and those without it. -/
theorem length_sublistsOfLength {α : Type} (k : Nat) (xs : List α) :
    (sublistsOfLength k xs).length = xs.length.choose k := by
  induction xs generalizing k with
  | nil => cases k <;> simp [sublistsOfLength]
  | cons x xs ih =>
    cases k with
    | zero => simp [sublistsOfLength]
    | succ k => simp [sublistsOfLength, ih, Nat.choose_succ_succ]

/-- Sets that keep an earlier token come first, which is lexicographic order. -/
theorem pairwise_sublistsOfLength {xs : List String} (h : xs.Pairwise (· < ·)) (k : Nat) :
    (sublistsOfLength k xs).Pairwise (· < ·) := by
  -- along the tokens, as the enumeration goes: with the first token, and then without it
  induction xs generalizing k with
  | nil => cases k <;> simp [sublistsOfLength]
  | cons x xs ih =>
    cases k with
    | zero => simp [sublistsOfLength]
    | succ k =>
      obtain ⟨hx, hxs⟩ := List.pairwise_cons.1 h
      rw [sublistsOfLength, List.pairwise_append, List.pairwise_map]
      refine ⟨?_, ih hxs (k + 1), ?_⟩
      · exact (ih hxs k).imp fun hlt => List.cons_lt_cons_iff.2 (.inr ⟨rfl, hlt⟩)
      · -- a set without `x` starts with a later token of the list
        intro l hl r hr
        obtain ⟨l, -, rfl⟩ := List.mem_map.1 hl
        obtain ⟨hsub, hlen⟩ := mem_sublistsOfLength.1 hr
        obtain ⟨y, ys, rfl⟩ := List.exists_cons_of_length_eq_add_one hlen
        have hy : x < y := hx y (hsub.subset List.mem_cons_self)
        exact List.cons_lt_cons_iff.2 (.inl hy)

/-! ## From one size to the next -/

/-- The set `ms` with one more token, in each way in which the token comes after all of `ms`. -/
def extensions (tokens ms : List String) : List (List String) :=
  (tokens.filter fun token => ∀ m ∈ ms, m < token).map fun token => ms ++ [token]

/-- What is one of these is made with one of the tokens. -/
theorem mem_extensions {tokens ms l : List String} :
    l ∈ extensions tokens ms ↔
      ∃ token ∈ tokens, (∀ m ∈ ms, m < token) ∧ ms ++ [token] = l := by
  simp only [extensions, List.mem_map, List.mem_filter, decide_eq_true_eq, and_assoc]

/-- A token after all members makes a set, which comes before those that later tokens make. -/
theorem extensions_of_later {x : String} {xs ms : List String} (h : ∀ m ∈ ms, m < x) :
    extensions (x :: xs) ms = (ms ++ [x]) :: extensions xs ms := by
  have hkept : decide (∀ m ∈ ms, m < x) = true := decide_eq_true h
  rw [extensions, List.filter_cons, if_pos hkept, List.map_cons, extensions]

/-- Any other token makes none. -/
theorem extensions_of_not_later {x : String} {xs ms : List String} (h : ¬ ∀ m ∈ ms, m < x) :
    extensions (x :: xs) ms = extensions xs ms := by
  have hdropped : ¬ decide (∀ m ∈ ms, m < x) = true := mt of_decide_eq_true h
  rw [extensions, List.filter_cons, if_neg hdropped, extensions]

/-- Where the first token is before all others, a set that starts with it is extended as what
follows the token is. -/
theorem extensions_cons_cons {x : String} {xs : List String} (hx : ∀ y ∈ xs, x < y)
    (ms : List String) :
    extensions (x :: xs) (x :: ms) = (extensions xs ms).map (x :: ·) := by
  have hrest : ∀ y ∈ xs, decide (∀ m ∈ x :: ms, m < y) = decide (∀ m ∈ ms, m < y) := by
    intro y hy
    rw [decide_eq_decide, List.forall_mem_cons]
    exact and_iff_right (hx y hy)
  rw [extensions_of_not_later fun h => lt_irrefl x (h x List.mem_cons_self), extensions,
    List.filter_congr hrest, extensions, List.map_map]
  rfl

/-- A set one larger is a set with a later token added to it, and the lexicographic order is kept by
adding the tokens in order. -/
theorem sublistsOfLength_succ {tokens : List String} (h : tokens.Pairwise (· < ·)) (k : Nat) :
    sublistsOfLength (k + 1) tokens = (sublistsOfLength k tokens).flatMap (extensions tokens) := by
  -- both sides first list the sets with the first token, and those of one token in order
  induction tokens generalizing k with
  | nil => cases k <;> simp [sublistsOfLength, extensions]
  | cons x xs ih =>
    obtain ⟨hx, hxs⟩ := List.pairwise_cons.1 h
    cases k with
    | zero => simp [sublistsOfLength_one, sublistsOfLength, extensions]
    | succ k =>
      -- sets with the first token, and sets without it
      have hwith : ((sublistsOfLength k xs).map (x :: ·)).flatMap (extensions (x :: xs)) =
          (sublistsOfLength (k + 1) xs).map (x :: ·) := by
        rw [ih hxs k, List.flatMap_map, List.map_flatMap]
        exact List.flatMap_congr fun ms _ => extensions_cons_cons hx ms
      have hwithout : (sublistsOfLength (k + 1) xs).flatMap (extensions (x :: xs)) =
          sublistsOfLength (k + 2) xs := by
        rw [ih hxs (k + 1)]
        apply List.flatMap_congr
        intro ms hms
        obtain ⟨hsub, hlength⟩ := mem_sublistsOfLength.1 hms
        obtain ⟨m, rest, rfl⟩ := List.exists_cons_of_length_eq_add_one hlength
        have hm : x < m := hx m (hsub.subset List.mem_cons_self)
        exact extensions_of_not_later fun h => lt_asymm hm (h m List.mem_cons_self)
      rw [sublistsOfLength, sublistsOfLength, List.flatMap_append, hwith, hwithout]

/-- Adding a token that comes before the last member gives a set that an earlier set of the same
size gives as well, by adding the last member to it. -/
theorem exists_earlier {tokens before after : List String} {k : Nat} {token m : String}
    (h : tokens.Pairwise (· < ·)) (hms : before ++ m :: after ∈ sublistsOfLength k tokens)
    (htoken : token ∈ tokens) (hbefore : ∀ b ∈ before, b < token) (hm : token < m) :
    ∃ earlier ∈ sublistsOfLength k tokens, earlier < before ++ m :: after ∧
      before ++ token :: m :: after ∈ extensions tokens earlier := by
  obtain ⟨hsub, hlength⟩ := mem_sublistsOfLength.1 hms
  have hascending := pairwise_insert (h.sublist hsub) hbefore hm
  have hsubset : before ++ token :: m :: after ⊆ tokens := by
    intro t ht
    rw [List.mem_append, List.mem_cons] at ht
    rcases ht with ht | rfl | ht
    · exact hsub.subset (List.mem_append_left _ ht)
    · exact htoken
    · exact hsub.subset (List.mem_append_right _ ht)
  -- the earlier set has the token in place of the last member
  obtain ⟨init, last, hlast⟩ : ∃ init last, m :: after = init ++ [last] :=
    ⟨_, _, (List.dropLast_append_getLast (List.cons_ne_nil m after)).symm⟩
  have hwhole : before ++ token :: m :: after = (before ++ token :: init) ++ [last] := by
    rw [hlast, List.append_assoc, List.cons_append]
  have hsize : (before ++ token :: init).length = k := by
    have hlengths := congrArg List.length hlast
    simp only [List.length_append, List.length_cons, List.length_nil] at hlength hlengths ⊢
    omega
  rw [hwhole] at hascending hsubset ⊢
  refine ⟨before ++ token :: init, ?_, ?_, ?_⟩
  · have hinit := (List.pairwise_append.1 hascending).1
    rw [mem_sublistsOfLength]
    exact ⟨sublist_of_subset hinit h fun t ht => hsubset (List.mem_append_left _ ht), hsize⟩
  · exact List.append_left_lt (List.cons_lt_cons_iff.2 (.inl hm))
  · rw [mem_extensions]
    refine ⟨last, hsubset (List.mem_append_right _ List.mem_cons_self), ?_, rfl⟩
    exact fun t ht => (List.pairwise_append.1 hascending).2.2 t ht last List.mem_cons_self

/-! ## Sets of all sizes -/

/-- The sets of each size from one to `k`, size after size. -/
def setsUpTo (tokens : List String) (k : Nat) : List (List String) :=
  (List.range' 1 k).flatMap fun size => sublistsOfLength size tokens

/-- The sets of the next size come after all smaller ones. -/
theorem setsUpTo_succ (tokens : List String) (k : Nat) :
    setsUpTo tokens (k + 1) = setsUpTo tokens k ++ sublistsOfLength (k + 1) tokens := by
  rw [setsUpTo, List.range'_1_concat, List.flatMap_append, List.flatMap_singleton, Nat.add_comm 1 k,
    setsUpTo]

/-- No set is larger than the last of the sizes. -/
theorem length_le_of_mem_setsUpTo {tokens ms : List String} {k : Nat} (h : ms ∈ setsUpTo tokens k) :
    ms.length ≤ k := by
  obtain ⟨size, hsize, hms⟩ := List.mem_flatMap.1 h
  rw [List.mem_range'_1] at hsize
  rw [(mem_sublistsOfLength.1 hms).2]
  omega

end ComboTree
