import ComboTree.PathStructure
import Std.Data.TreeSet

/-!
# Combinations of tokens

A `Combination` is a multiset of tokens, kept in ascending order; its label is its members joined
with `-`.  `combinations` finds every non-empty set of the given tokens: it starts from the single
tokens, and round by round extends each set that the last round found by each token it lacks.  A set
is reached from several smaller ones, so what was seen before is not listed again.

* `Discovery`  what has been found, in order, with the same as a set
* `members_ofMembers_of_sorted`  tokens already in order are kept as they are
-/

namespace ComboTree

open Text (pieces joined)
open PathStructure (memberSeparator)

/-- Tokens taken together, in ascending order, repetitions kept. -/
structure Combination where
  members : List String
  sorted : members.Pairwise (· ≤ ·)
deriving DecidableEq, Repr

namespace Combination

/-- The combination of the given tokens, which may come in any order. -/
def ofMembers (tokens : List String) : Combination where
  members := tokens.mergeSort (· ≤ ·)
  sorted := by
    have h := @List.pairwise_mergeSort String (· ≤ ·)
      (by simpa using fun a b c => String.le_trans) (by simpa using String.le_total) tokens
    simpa using h

instance : Inhabited Combination := ⟨ofMembers []⟩

/-- Sorting neither loses nor adds a token. -/
theorem members_ofMembers_perm (tokens : List String) : (ofMembers tokens).members.Perm tokens :=
  List.mergeSort_perm tokens _

/-- A list can stand in ascending order in one way only. -/
theorem members_eq_of_perm_of_sorted {tokens sorted : List String} (hperm : sorted.Perm tokens)
    (hsorted : sorted.Pairwise (· ≤ ·)) : (ofMembers tokens).members = sorted := by
  have hsame : (ofMembers tokens).members.Perm sorted :=
    (members_ofMembers_perm tokens).trans hperm.symm
  exact hsame.eq_of_pairwise (fun _ _ _ _ => String.le_antisymm) (ofMembers tokens).sorted hsorted

/-- Tokens already in order are kept as they are. -/
theorem members_ofMembers_of_sorted {tokens : List String} (h : tokens.Pairwise (· ≤ ·)) :
    (ofMembers tokens).members = tokens :=
  List.mergeSort_of_pairwise (by simpa using h)

/-- Combinations with the same members are the same. -/
theorem ext {c d : Combination} (h : c.members = d.members) : c = d := by
  cases c
  cases d
  cases h
  rfl

/-- The tokens of a label, in label order. -/
def labelTokens (label : String) : List String :=
  pieces memberSeparator label

/-- The combination whose label is `label`, up to the order of the members. -/
def ofLabel (label : String) : Combination :=
  ofMembers (labelTokens label)

/-- The members joined with the member separator. -/
def label (c : Combination) : String :=
  joined memberSeparator c.members

/-- The number of members, repetitions counted. -/
def size (c : Combination) : Nat :=
  c.members.length

/-- Whether there is no member. -/
def isEmpty (c : Combination) : Bool :=
  c.members.isEmpty

/-- Whether `token` is one of the members. -/
def contains (c : Combination) (token : String) : Bool :=
  c.members.contains token

/-- Whether two combinations have the same members, as often. -/
def sameMembers (c d : Combination) : Bool :=
  c.members = d.members

/-- The members and one more token. -/
def extended (c : Combination) (token : String) : Combination :=
  ofMembers (c.members ++ [token])

/-- Combinations are ordered as their member lists are, lexicographically. -/
instance : Ord Combination :=
  ⟨fun c d => compare c.members d.members⟩

/-- The order of member lists is a total one. -/
instance : Std.TransOrd Combination where
  eq_swap := Std.OrientedOrd.eq_swap (α := List String)
  isLE_trans := Std.TransOrd.isLE_trans (α := List String)

/-- No two combinations stand at the same place of the order. -/
instance : Std.LawfulEqOrd Combination where
  compare_self := Std.ReflOrd.compare_self (α := List String)
  eq_of_compare h := ext (Std.LawfulEqOrd.eq_of_compare (α := List String) h)

end Combination

/-! ## Enumeration -/

open Combination (ofMembers)

/-- The distinct tokens, in ascending order. -/
def distinctSorted (tokens : List String) : List String :=
  (ofMembers tokens).members.eraseReps

/-- Combinations in the order in which they were found, and the same as a set. -/
structure Discovery where
  found : Array Combination
  seen : Std.TreeSet Combination
  mem_seen_iff : ∀ c, c ∈ seen ↔ c ∈ found

namespace Discovery

/-- Each token on its own. -/
def singletons (tokens : List String) : Discovery where
  found := (tokens.map fun token => ofMembers [token]).toArray
  seen := .ofList (tokens.map fun token => ofMembers [token])
  mem_seen_iff := by
    intro c
    rw [Std.TreeSet.mem_ofList, List.mem_toArray, List.contains_iff_mem]

/-- A combination is found once: one that was seen before adds nothing. -/
def offer (d : Discovery) (c : Combination) : Discovery :=
  if c ∈ d.seen then
    d
  else
    { found := d.found.push c
      seen := d.seen.insert c
      mem_seen_iff := by
        intro other
        rw [Std.TreeSet.mem_insert, Array.mem_push, d.mem_seen_iff,
          Std.LawfulEqOrd.compare_eq_iff_eq, or_comm, eq_comm] }

/-- A token that `c` lacks extends it. -/
def offerExtended (c : Combination) (d : Discovery) (token : String) : Discovery :=
  if c.contains token then d else d.offer (c.extended token)

/-- The combination found at position `i` is extended by each of the tokens in turn. -/
def extendAt (tokens : List String) (d : Discovery) (i : Nat) : Discovery :=
  match d.found[i]? with
  | some c => tokens.foldl (offerExtended c) d
  -- positions are those of what was found before, so there is something at each
  | none => d

/-- One round: what stands from position `start` up to `stop` is extended, first to last.  What the
round finds comes after all that. -/
def round (tokens : List String) (d : Discovery) (start stop : Nat) : Discovery :=
  (List.range' start (stop - start)).foldl (extendAt tokens) d

/-- So many rounds, each of which extends what the one before it found.  The first extends what
stands from `start` up to `stop`. -/
def rounds (tokens : List String) : Nat → Discovery → (start stop : Nat) → Discovery
  | 0, d, _, _ => d
  | count + 1, d, start, stop =>
    let next := d.round tokens start stop
    rounds tokens count next d.found.size next.found.size

end Discovery

/-- Every non-empty set of the given tokens, in the order in which the rounds find them: there is
one round for each size from two up to the number of distinct tokens. -/
def combinations (tokens : List String) : List Combination :=
  let distinct := distinctSorted tokens
  let single := Discovery.singletons distinct
  (single.rounds distinct (distinct.length - 1) 0 single.found.size).found.toList

/-- `combinations`, for at most `limit` distinct tokens. -/
def combinationsWithin (limit : Nat) (tokens : List String) : Except Fault (List Combination) :=
  let count := tokens.eraseDups.length
  if limit < count then .error (.tooManyAlternatives count limit) else .ok (combinations tokens)

/-- The labels of all combinations of the given tokens. -/
def combinationLabels (tokens : List String) : List String :=
  (combinations tokens).map Combination.label

end ComboTree
