import ComboTree.Proofs.Subsets

/-!
# What the rounds find

The search extends the sets of one size by every token they lack.  A set of the next size is met as
often as it has members, and it is listed where it is met first.  Since the sets of one size come in
lexicographic order, that is where its last member is the one that is added: adding any other member
last starts from a later set.  So a round lists, for each set in turn, the set with each later token
added, and these are the sets of the next size in lexicographic order again.

The invariant of a round, `Extending`, says this of the sets that were extended so far.

## Key results

- `lists_offer`: what is found twice is listed once
- `lists_foldl_offerExtended`: one set, extended by each token in turn
- `Extending.mem_done_iff`: which sets have been extended in the midst of a round
- `Extending.extendAt`, `lists_round`: one step of a round, and the whole round
- `lists_rounds`: all rounds
- `map_members_combinations`: what is found in the end
-/

namespace ComboTree

namespace Combination

/-- The new token stands where it belongs. -/
theorem members_extended {c : Combination} {before after : List String} {token : String}
    (hc : c.members = before ++ after) (h : (before ++ token :: after).Pairwise (· ≤ ·)) :
    (c.extended token).members = before ++ token :: after := by
  apply members_eq_of_perm_of_sorted _ h
  rw [hc]
  exact List.perm_middle.trans (List.perm_append_singleton _ _).symm

end Combination

namespace Discovery

variable {tokens ms : List String} {token : String} {c : Combination} {d : Discovery}

/-- The member lists of what was found, in order. -/
def lists (d : Discovery) : List (List String) :=
  d.found.toList.map Combination.members

/-- There are as many member lists as combinations. -/
theorem length_lists (d : Discovery) : d.lists.length = d.found.size := by
  rw [lists, List.length_map, Array.length_toList]

/-- A combination was found just when its members were. -/
theorem members_mem_lists_iff : c.members ∈ d.lists ↔ c ∈ d.seen := by
  rw [d.mem_seen_iff, ← Array.mem_toList_iff]
  constructor
  · intro h
    obtain ⟨other, hother, hmembers⟩ := List.mem_map.1 h
    exact Combination.ext hmembers ▸ hother
  · exact fun h => List.mem_map_of_mem h

/-- The search starts from the single tokens. -/
theorem lists_singletons (tokens : List String) :
    (singletons tokens).lists = tokens.map ([·]) := by
  rw [lists, singletons, List.map_map]
  exact List.map_congr_left fun token _ =>
    Combination.members_ofMembers_of_sorted (List.pairwise_singleton _ _)

/-! ## One token -/

/-- What was seen before is not listed again, and what was not is listed last. -/
theorem lists_offer (d : Discovery) (c : Combination) :
    (d.offer c).lists = if c.members ∈ d.lists then d.lists else d.lists ++ [c.members] := by
  rw [offer]
  by_cases h : c ∈ d.seen
  · rw [if_pos h, if_pos (members_mem_lists_iff.2 h)]
  · rw [if_neg h, if_neg (mt members_mem_lists_iff.1 h), lists, Array.toList_push, List.map_append]
    rfl

/-- A token that comes after all members makes a new set, if that set was not found before. -/
theorem lists_offerExtended_of_later (hc : c.members.Pairwise (· < ·))
    (hlater : ∀ m ∈ c.members, m < token) (hnew : c.members ++ [token] ∉ d.lists) :
    (offerExtended c d token).lists = d.lists ++ [c.members ++ [token]] := by
  have hlack : ¬ c.contains token := by
    intro h
    exact lt_irrefl token (hlater token (List.contains_iff_mem.1 h))
  -- after all members, the token is put at the end
  have hmembers : (c.extended token).members = c.members ++ [token] := by
    apply Combination.members_extended (List.append_nil _).symm
    refine List.pairwise_append.2 ⟨hc.imp le_of_lt, List.pairwise_singleton _ _, ?_⟩
    intro m hm t ht
    rw [List.mem_singleton.1 ht]
    exact le_of_lt (hlater m hm)
  rw [offerExtended, if_neg hlack, lists_offer, hmembers, if_neg hnew]

/-- Any other token adds nothing, if the set that it makes was found before. -/
theorem lists_offerExtended_of_not_later
    (hseen : token ∉ c.members → (c.extended token).members ∈ d.lists) :
    (offerExtended c d token).lists = d.lists := by
  rw [offerExtended]
  by_cases h : c.contains token
  · rw [if_pos h]
  · rw [if_neg h, lists_offer, if_pos (hseen (mt List.contains_iff_mem.2 h))]

/-- The tokens in turn: the later ones make new sets, which differ from each other, and what the
others make was found before. -/
theorem lists_foldl_offerExtended (hc : c.members.Pairwise (· < ·)) (htokens : tokens.Nodup)
    (hnew : ∀ token ∈ tokens, (∀ m ∈ c.members, m < token) → c.members ++ [token] ∉ d.lists)
    (hseen : ∀ token ∈ tokens, ¬ (∀ m ∈ c.members, m < token) → token ∉ c.members →
      (c.extended token).members ∈ d.lists) :
    (tokens.foldl (offerExtended c) d).lists = d.lists ++ extensions tokens c.members := by
  -- along the tokens; both hypotheses are kept, as what is listed only grows by other sets
  induction tokens generalizing d with
  | nil => exact (List.append_nil _).symm
  | cons token rest ih =>
    obtain ⟨hfresh, hrest⟩ := List.nodup_cons.1 htokens
    rw [List.foldl_cons]
    by_cases hlater : ∀ m ∈ c.members, m < token
    · have hstep := lists_offerExtended_of_later hc hlater (hnew token List.mem_cons_self hlater)
      rw [ih hrest, hstep, extensions_of_later hlater, List.append_assoc, List.singleton_append]
      · -- the set just listed ends in another token
        intro other hother hlater' hmem
        rw [hstep, List.mem_append, List.mem_singleton] at hmem
        rcases hmem with hmem | hsame
        · exact hnew other (List.mem_cons_of_mem _ hother) hlater' hmem
        · rw [List.append_cancel_left_eq, List.singleton_inj] at hsame
          exact hfresh (hsame ▸ hother)
      · intro other hother hnot hlack
        rw [hstep]
        exact List.mem_append_left _ (hseen other (List.mem_cons_of_mem _ hother) hnot hlack)
    · have hstep := lists_offerExtended_of_not_later (hseen token List.mem_cons_self hlater)
      rw [ih hrest, hstep, extensions_of_not_later hlater]
      · intro other hother
        rw [hstep]
        exact hnew other (List.mem_cons_of_mem _ hother)
      · intro other hother
        rw [hstep]
        exact hseen other (List.mem_cons_of_mem _ hother)

/-! ## One set -/

/-- Where a token does not come after all members, and is none of them, it stands before one. -/
theorem exists_split (hlack : token ∉ ms) (hnot : ¬ ∀ m ∈ ms, m < token) :
    ∃ before m after, ms = before ++ m :: after ∧ (∀ b ∈ before, b < token) ∧ token < m := by
  -- along the members: the first that is not less than the token is the one
  induction ms with
  | nil => exact absurd (fun m hm => absurd hm List.not_mem_nil) hnot
  | cons m ms ih =>
    rw [List.mem_cons, not_or] at hlack
    by_cases hm : m < token
    · obtain ⟨before, m', after, rfl, hbefore, hm'⟩ :=
        ih hlack.2 fun hall => hnot (List.forall_mem_cons.2 ⟨hm, hall⟩)
      exact ⟨m :: before, m', after, rfl, List.forall_mem_cons.2 ⟨hm, hbefore⟩, hm'⟩
    · exact ⟨[], m, ms, rfl, fun b hb => absurd hb List.not_mem_nil,
        lt_of_le_of_ne (not_lt.1 hm) hlack.1⟩

/-- In the midst of a round: of the sets of size `k + 1`, those in `done` have been extended, and
those in `todo` are still to come. -/
structure Extending (tokens : List String) (k : Nat) (done todo : List (List String))
    (d : Discovery) : Prop where
  split : done ++ todo = sublistsOfLength (k + 1) tokens
  lists_eq : d.lists = setsUpTo tokens (k + 1) ++ done.flatMap (extensions tokens)

variable {k : Nat} {done todo : List (List String)}

/-- The next set to be extended is one of that size. -/
theorem Extending.next_mem (h : Extending tokens k done (ms :: todo) d) :
    ms ∈ sublistsOfLength (k + 1) tokens :=
  h.split ▸ List.mem_append_right _ List.mem_cons_self

/-- The sets that have been extended are those of that size which come before the next one. -/
theorem Extending.mem_done_iff (h : Extending tokens k done (ms :: todo) d)
    (htokens : tokens.Pairwise (· < ·)) {other : List String} :
    other ∈ done ↔ other ∈ sublistsOfLength (k + 1) tokens ∧ other < ms := by
  -- the sets ascend: what is done comes before the next one, and that before all others
  have hsorted := pairwise_sublistsOfLength htokens (k + 1)
  rw [← h.split] at hsorted ⊢
  obtain ⟨-, htodo, hacross⟩ := List.pairwise_append.1 hsorted
  constructor
  · intro hother
    exact ⟨List.mem_append_left _ hother, hacross other hother ms List.mem_cons_self⟩
  · intro ⟨hother, hlt⟩
    rcases List.mem_append.1 hother with hother | hother
    · exact hother
    · rcases List.mem_cons.1 hother with rfl | hother
      · exact absurd hlt (lt_irrefl _)
      · exact absurd hlt (lt_asymm (List.rel_of_pairwise_cons htodo hother))

/-- The next set to be extended stands after those that are smaller or were extended already. -/
theorem Extending.getElem?_lists (h : Extending tokens k done (ms :: todo) d) :
    d.lists[(setsUpTo tokens k).length + done.length]? = some ms := by
  rw [h.lists_eq, setsUpTo_succ, ← h.split, List.append_assoc, List.getElem?_append_right (by omega),
    Nat.add_sub_cancel_left, List.append_assoc, List.getElem?_append_right (Nat.le_refl _),
    Nat.sub_self]
  rfl

/-- A set made with a later token was not found before: it is larger than the sets to be extended,
and what the others were extended to starts with these. -/
theorem Extending.not_mem_lists (h : Extending tokens k done (ms :: todo) d)
    (htokens : tokens.Pairwise (· < ·)) : ms ++ [token] ∉ d.lists := by
  have hlength := (mem_sublistsOfLength.1 h.next_mem).2
  rw [h.lists_eq, List.mem_append, not_or]
  constructor
  · intro hmem
    have hle := length_le_of_mem_setsUpTo hmem
    rw [List.length_append, hlength, List.length_singleton] at hle
    omega
  · intro hmem
    obtain ⟨other, hother, hextension⟩ := List.mem_flatMap.1 hmem
    obtain ⟨_, -, -, hsame⟩ := mem_extensions.1 hextension
    obtain ⟨rfl, -⟩ := List.append_inj' hsame rfl
    -- a set that starts with `ms` and has one member more was made from `ms` itself
    exact lt_irrefl _ ((h.mem_done_iff htokens).1 hother).2

/-- A set made with a token that is not later was found before: an earlier set was extended to it. -/
theorem Extending.mem_lists (h : Extending tokens k done (c.members :: todo) d)
    (htokens : tokens.Pairwise (· < ·)) (htoken : token ∈ tokens)
    (hnot : ¬ ∀ m ∈ c.members, m < token) (hlack : token ∉ c.members) :
    (c.extended token).members ∈ d.lists := by
  have hms := h.next_mem
  obtain ⟨before, m, after, hsplit, hbefore, hm⟩ := exists_split hlack hnot
  rw [hsplit] at hms
  obtain ⟨earlier, hearlier, hlt, hextension⟩ := exists_earlier htokens hms htoken hbefore hm
  have hdone : earlier ∈ done := (h.mem_done_iff htokens).2 ⟨hearlier, hsplit ▸ hlt⟩
  have hascending := pairwise_insert (htokens.sublist (mem_sublistsOfLength.1 hms).1) hbefore hm
  rw [Combination.members_extended hsplit (hascending.imp le_of_lt), h.lists_eq]
  exact List.mem_append_right _ (List.mem_flatMap.2 ⟨earlier, hdone, hextension⟩)

/-- One step of a round: the next set is extended by each later token. -/
theorem Extending.extendAt (h : Extending tokens k done (ms :: todo) d)
    (htokens : tokens.Pairwise (· < ·)) :
    Extending tokens k (done ++ [ms]) todo
      (d.extendAt tokens ((setsUpTo tokens k).length + done.length)) := by
  have hms := h.next_mem
  have hplace := h.getElem?_lists
  rw [lists, List.getElem?_map, Array.getElem?_toList] at hplace
  obtain ⟨c, hc, rfl⟩ := Option.map_eq_some_iff.1 hplace
  have hascending := htokens.sublist (mem_sublistsOfLength.1 hms).1
  -- the set has moved to those that are done, and its extensions to the end of what is found
  constructor
  case split => rw [List.append_assoc, List.singleton_append, h.split]
  case lists_eq =>
    rw [Discovery.extendAt, hc]
    dsimp only
    rw [lists_foldl_offerExtended hascending htokens.nodup (fun _ _ _ => h.not_mem_lists htokens)
      (fun _ htoken => h.mem_lists htokens htoken), h.lists_eq, List.flatMap_append,
      List.flatMap_singleton, List.append_assoc]

/-! ## Rounds -/

/-- All steps of a round: the sets in `todo` are extended, one after the other. -/
theorem Extending.lists_foldl_extendAt (h : Extending tokens k done todo d)
    (htokens : tokens.Pairwise (· < ·)) :
    ((List.range' ((setsUpTo tokens k).length + done.length) todo.length).foldl
      (Discovery.extendAt tokens) d).lists = setsUpTo tokens (k + 2) := by
  -- with nothing left to do, all sets of one size are extended, which makes the next size
  induction todo generalizing done d with
  | nil =>
    have hall := h.split
    rw [List.append_nil] at hall
    rw [setsUpTo_succ tokens (k + 1), sublistsOfLength_succ htokens, ← hall]
    exact h.lists_eq
  | cons ms todo ih =>
    have hnext := ih (h.extendAt htokens)
    rw [List.length_append, List.length_singleton, ← Nat.add_assoc] at hnext
    rw [List.length_cons, List.range'_succ, List.foldl_cons]
    exact hnext

/-- A round finds the sets that are one larger than those it extends. -/
theorem lists_round (htokens : tokens.Pairwise (· < ·)) (h : d.lists = setsUpTo tokens (k + 1)) :
    (d.round tokens (setsUpTo tokens k).length d.found.size).lists = setsUpTo tokens (k + 2) := by
  have hstart : Extending tokens k [] (sublistsOfLength (k + 1) tokens) d :=
    ⟨List.nil_append _, h.trans (List.append_nil _).symm⟩
  have hcount : d.found.size - (setsUpTo tokens k).length =
      (sublistsOfLength (k + 1) tokens).length := by
    rw [← length_lists, h, setsUpTo_succ, List.length_append, Nat.add_sub_cancel_left]
  rw [round, hcount]
  exact hstart.lists_foldl_extendAt htokens

/-- After the sets of size `k + 1`, each round adds those of one size more. -/
theorem lists_rounds (htokens : tokens.Pairwise (· < ·)) (count : Nat)
    (h : d.lists = setsUpTo tokens (k + 1)) :
    (d.rounds tokens count (setsUpTo tokens k).length d.found.size).lists =
      setsUpTo tokens (k + 1 + count) := by
  -- a round hands on the two ends of the window: where the last size starts, and where it stops
  induction count generalizing k d with
  | zero => exact h
  | succ count ih =>
    have hrest := ih (lists_round htokens h)
    rw [← h, length_lists, Nat.add_right_comm (k + 1)] at hrest
    exact hrest

end Discovery

/-! ## All rounds -/

/-- The member lists behind the combinations are the sets of the tokens, size after size. -/
theorem map_members_combinations (tokens : List String) :
    (combinations tokens).map Combination.members =
      setsUpTo (distinctSorted tokens) (distinctSorted tokens).length := by
  have hdistinct := pairwise_distinctSorted tokens
  have hsingle : (Discovery.singletons (distinctSorted tokens)).lists =
      setsUpTo (distinctSorted tokens) 1 := by
    rw [Discovery.lists_singletons, ← sublistsOfLength_one, setsUpTo_succ]
    rfl
  have hall := Discovery.lists_rounds hdistinct ((distinctSorted tokens).length - 1) hsingle
  rw [combinations]
  refine hall.trans ?_
  -- one round for each size after the first, and none if there are no tokens
  cases hn : distinctSorted tokens with
  | nil => rfl
  | cons token rest =>
    rw [List.length_cons, Nat.add_sub_cancel, Nat.zero_add, Nat.add_comm]

end ComboTree
