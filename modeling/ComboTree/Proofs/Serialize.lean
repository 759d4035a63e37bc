import ComboTree.Proofs.Language
import ComboTree.Proofs.RoundTrip

/-!
# Writing path structures and reading them

A text of the notation has one root token and one list of alternatives for each level, and
`serialize` writes it from these.  Reading drops what a level offers a second time and nothing else,
so writing and reading undo each other up to that: what is written is read as the distinct
alternatives, and what was read is written as the text without its repetitions.

## Key results

- `Writes.unique`, `writes_serialize`: a text says in one way what was written
- `Writes.eraseDups`, `levelsOf_map_eraseDups`: the text without repetitions, and that it is read as
  the same levels
- `parse_serialize_inverse`: both directions
-/

namespace ComboTree.PathStructure

open Text (pieces joined)

variable {strict : Bool} {path root root' : String} {below below' : List (List String)}

/-! ## Texts -/

/-- Tokens, at least one for each level, are written as a text of the notation. -/
theorem writes_serialize (hroot : IsToken strict root) (hne : ∀ level ∈ below, level ≠ [])
    (htokens : ∀ level ∈ below, ∀ token ∈ level, IsToken strict token) :
    Writes strict (serialize root below) root below :=
  ⟨hroot, hne, htokens, Tree.serialize_eq root below⟩

namespace Writes

/-- A text is cut at its slashes and bars, so it is written in one way only. -/
theorem unique (h : Writes strict path root below) (h' : Writes strict path root' below') :
    root = root' ∧ below = below' := by
  have hsegments := h.segmented.unique h'.segmented
  have hpieces := h.map_pieces
  rw [hsegments, h'.map_pieces] at hpieces
  obtain ⟨hroot, hbelow⟩ := List.cons.inj hpieces
  exact ⟨(List.singleton_inj.1 hroot).symm, hbelow.symm⟩

/-- A text of the notation is what is written from its root and its alternatives. -/
theorem serialize_eq (h : Writes strict path root below) : serialize root below = path := by
  rw [Tree.serialize_eq, h.text]

/-- Without the repetitions in its levels a text is one of the notation still. -/
theorem eraseDups (h : Writes strict path root below) :
    Writes strict (serialize root (below.map List.eraseDups)) root (below.map List.eraseDups) := by
  apply writes_serialize h.root_isToken
  · intro level hlevel
    obtain ⟨alternatives, halternatives, rfl⟩ := List.mem_map.1 hlevel
    obtain ⟨a, ha⟩ := List.exists_mem_of_ne_nil _ (h.ne_nil alternatives halternatives)
    exact List.ne_nil_of_mem (List.mem_eraseDups.2 ha)
  · intro level hlevel token htoken
    obtain ⟨alternatives, halternatives, rfl⟩ := List.mem_map.1 hlevel
    exact h.isToken alternatives halternatives token (List.mem_eraseDups.1 htoken)

/-- Writing a text without its repetitions gives the same text just when it has none. -/
theorem serialize_eraseDups_eq_iff (h : Writes strict path root below) :
    serialize root (below.map List.eraseDups) = path ↔
      ∀ alternatives ∈ below, alternatives.Nodup := by
  constructor
  · intro hsame alternatives halternatives
    have hwrites := h.eraseDups
    rw [hsame] at hwrites
    -- the text is written in one way, so dropping repetitions leaves each level as it is
    have hbelow : below.map List.eraseDups = below.map id := by
      rw [List.map_id]
      exact (hwrites.unique h).2
    exact List.eraseDups_eq_self_iff.1 (List.map_inj_left.1 hbelow alternatives halternatives)
  · intro hnodup
    have hbelow : below.map List.eraseDups = below :=
      (List.map_congr_left fun alternatives halternatives =>
        List.eraseDups_eq_self (hnodup alternatives halternatives)).trans (List.map_id below)
    rw [hbelow, h.serialize_eq]

end Writes

/-! ## Levels -/

/-- What is read are the first occurrences. -/
theorem map_tokens_levelsOf (offered : List (List String)) :
    (levelsOf offered).map Level.tokens = offered.map List.eraseDups := by
  -- numbering the levels does not touch what they offer
  have hfst : (offered.zipIdx.map Prod.fst).map List.eraseDups = offered.map List.eraseDups := by
    rw [List.zipIdx_map_fst]
  rw [levelsOf, List.map_map, ← hfst, List.map_map]
  rfl

/-- Repetitions make no difference to the levels. -/
theorem levelsOf_map_eraseDups (offered : List (List String)) :
    levelsOf (offered.map List.eraseDups) = levelsOf offered := by
  have htwice : ∀ alternatives : List String,
      alternatives.eraseDups.eraseDups = alternatives.eraseDups :=
    fun alternatives => List.eraseDups_eq_self (List.nodup_eraseDups alternatives)
  rw [levelsOf, levelsOf, List.zipIdx_map, List.map_map]
  apply List.map_congr_left
  intro entry _
  simp only [Function.comp_apply, Prod.map_fst, Prod.map_snd, htwice, id_eq]

/-- The levels of an accepted text, with what it writes. -/
theorem exists_writes_of_parse {levels : List Level} (h : parse strict path = .ok levels) :
    ∃ root below label offered, levels = root :: below ∧ root.tokens = [label] ∧
      below.map Level.tokens = offered.map List.eraseDups ∧ Writes strict path label offered ∧
      levels = levelsOf ([label] :: offered) := by
  obtain ⟨label, offered, hwrites, hlevels⟩ := parse_eq_ok_iff_writes.1 h
  have htokens := map_tokens_levelsOf ([label] :: offered)
  rw [← hlevels, List.map_cons, List.eraseDups_eq_self (List.nodup_singleton label)] at htokens
  -- the root token makes the first level
  cases levels with
  | nil => exact nomatch htokens
  | cons root below =>
    obtain ⟨hroot, hbelow⟩ := List.cons.inj htokens
    exact ⟨root, below, label, offered, rfl, hroot, hbelow, hwrites, hlevels⟩

/-- Writing and reading are inverse up to repeated alternatives.  A root token and levels of tokens,
none of them empty, are read back from their text as one level each, with its depth and the first
occurrences of its tokens.  An accepted text is written again from its levels without the later
repetitions of an alternative in its segment; this is the same text just when no segment repeats an
alternative, and it is read as the same levels. -/
theorem parse_serialize_inverse (strict : Bool) :
    (∀ root levels, IsToken strict root → (∀ level ∈ levels, level ≠ []) →
      (∀ level ∈ levels, ∀ token ∈ level, IsToken strict token) →
      parse strict (serialize root levels) = .ok (levelsOf ([root] :: levels))) ∧
    ∀ path levels, parse strict path = .ok levels → ∃ root below label offered,
      levels = root :: below ∧ root.tokens = [label] ∧ Writes strict path label offered ∧
      serialize label (below.map Level.tokens) = "/" ++ label ++ String.join
        (offered.map fun alternatives => "/" ++ "|".intercalate alternatives.eraseDups) ∧
      (serialize label (below.map Level.tokens) = path ↔
        ∀ alternatives ∈ offered, alternatives.Nodup) ∧
      parse strict (serialize label (below.map Level.tokens)) = .ok levels := by
  constructor
  · intro root levels hroot hne htokens
    exact parse_eq_ok_iff_writes.2 ⟨root, levels, writes_serialize hroot hne htokens, rfl⟩
  · intro path levels h
    obtain ⟨root, below, label, offered, hcons, hroot, hbelow, hwrites, hlevels⟩ :=
      exists_writes_of_parse h
    refine ⟨root, below, label, offered, hcons, hroot, hwrites, ?_, ?_, ?_⟩
    · rw [hbelow, Tree.serialize_eq, List.map_map]
      rfl
    · rw [hbelow]
      exact hwrites.serialize_eraseDups_eq_iff
    · -- the text without repetitions writes the same distinct alternatives
      rw [hbelow, hlevels, ← levelsOf_map_eraseDups]
      have hsingle : ([label] :: offered).map List.eraseDups =
          [label] :: offered.map List.eraseDups := by
        rw [List.map_cons, List.eraseDups_eq_self (List.nodup_singleton label)]
      rw [hsingle]
      exact parse_eq_ok_iff_writes.2 ⟨label, _, hwrites.eraseDups, rfl⟩

/-- A level that offers one alternative twice, written from tokens and read from a text. -/
theorem parse_serialize_inverse_home :
    parse false (serialize "home" [["b", "a-c", "b"], ["d"]]) =
      .ok [⟨0, ["home"]⟩, ⟨1, ["b", "a-c"]⟩, ⟨2, ["d"]⟩] ∧
    parse false "/home/b|a-c|b/d" = .ok [⟨0, ["home"]⟩, ⟨1, ["b", "a-c"]⟩, ⟨2, ["d"]⟩] ∧
    parse false (serialize "home" [["b", "a-c"], ["d"]]) =
      .ok [⟨0, ["home"]⟩, ⟨1, ["b", "a-c"]⟩, ⟨2, ["d"]⟩] := by
  have htoken : ∀ token ∈ ["home", "b", "a-c", "d"], IsToken false token := by
    intro token htoken
    have hplain : token ≠ "" ∧ '/' ∉ token.toList ∧ '|' ∉ token.toList := by
      revert token
      decide
    exact ⟨hplain.1, hplain.2.1, hplain.2.2, nofun⟩
  have hread : parse false "/home/b|a-c|b/d" =
      .ok [⟨0, ["home"]⟩, ⟨1, ["b", "a-c"]⟩, ⟨2, ["d"]⟩] := by
    cbv
  refine ⟨(parse_serialize_inverse false).1 "home" [["b", "a-c", "b"], ["d"]] ?_ ?_ ?_, hread, ?_⟩
  · exact htoken "home" (by simp)
  · decide
  · intro level hlevel token hmem
    have hlisted : token ∈ ["home", "b", "a-c", "d"] := by
      revert token level
      decide
    exact htoken token hlisted
  · obtain ⟨root, below, label, offered, hcons, hroot, -, -, -, hagain⟩ :=
      (parse_serialize_inverse false).2 _ _ hread
    obtain ⟨rfl, rfl⟩ := List.cons.inj hcons
    obtain rfl := List.singleton_inj.1 hroot
    exact hagain

end ComboTree.PathStructure
