import ComboTree.Proofs.Notation
import ComboTree.Proofs.Pieces

/-!
# The language of path structures

Which texts are path structures, and what is wrong with the others, said without cutting a text:
`Writes` spells the text of a root token and of the alternatives below it, and `FirstProblem` names
the problem that a reader comes upon first.  Slashes are looked at before bars, and bars before
tokens; the problems of the slashes alone are those of `SlashProblem`.

## Key results

- `segmented_iff`, `offers_iff`: slashes and bars, as they are cut
- `segments_eq_ok_iff`, `segments_eq_error_iff`: the checks of the slashes
- `tokens_eq_ok_iff_offers`, `tokens_eq_error_iff`: the checks of the bars of one segment
- `parse_eq_ok_iff_writes`, `parse_eq_error_iff`: what is accepted, and the problem of the rest
- `parse_concat`, `isToken_of_parse`: one segment more, and what the levels hold
- `parse_decides`: both
-/

namespace ComboTree.PathStructure

open Text (pieces joined)

/-! ## The notation -/

/-- A text that stands for one alternative. -/
structure IsToken (strict : Bool) (token : String) : Prop where
  ne_empty : token ≠ ""
  no_slash : '/' ∉ token.toList
  no_bar : '|' ∉ token.toList
  no_dash : strict = true → '-' ∉ token.toList

/-- What is a token in the strict form is one in the other. -/
theorem IsToken.lenient {strict : Bool} {token : String} (h : IsToken strict token) :
    IsToken false token :=
  ⟨h.ne_empty, h.no_slash, h.no_bar, nofun⟩

/-- The text `path` is the given segments, each after a slash. -/
structure Segmented (path : String) (segs : List String) : Prop where
  ne_nil : segs ≠ []
  no_slash : ∀ s ∈ segs, '/' ∉ s.toList
  text : path = String.join (segs.map ("/" ++ ·))

/-- The text `segment` is the given alternatives with a bar between neighbours. -/
structure Offers (segment : String) (alternatives : List String) : Prop where
  ne_nil : alternatives ≠ []
  no_bar : ∀ a ∈ alternatives, '|' ∉ a.toList
  text : segment = "|".intercalate alternatives

/-- The text `path` is a root token and the alternatives of the levels below it. -/
structure Writes (strict : Bool) (path root : String) (below : List (List String)) : Prop where
  root_isToken : IsToken strict root
  ne_nil : ∀ alternatives ∈ below, alternatives ≠ []
  isToken : ∀ alternatives ∈ below, ∀ a ∈ alternatives, IsToken strict a
  text : path = "/" ++ root ++
    String.join (below.map fun alternatives => "/" ++ "|".intercalate alternatives)

/-! ## Problems -/

/-- The first problem of the slashes of a text, and of the bars of its root segment. -/
inductive SlashProblem (path : String) : Fault → Prop where
  | noLeadingSeparator :
    path.toList.head? ≠ some '/' →
    SlashProblem path (.malformedPath path .noLeadingSeparator)
  | trailingSeparator :
    path.toList.head? = some '/' → path.toList.getLast? = some '/' →
    SlashProblem path (.malformedPath path .trailingSeparator)
  | rootAlternatives {root : String} {below : List String} :
    Segmented path (root :: below) → path.toList.getLast? ≠ some '/' → '|' ∈ root.toList →
    SlashProblem path (.rootAlternatives path)
  | emptySegment {root : String} {below before after : List String} :
    Segmented path (root :: below) → path.toList.getLast? ≠ some '/' → '|' ∉ root.toList →
    root :: below = before ++ "" :: after → "" ∉ before →
    SlashProblem path (.malformedPath path (.emptySegment before.length))

/-- What keeps a text without slashes and bars from being a token. -/
inductive TokenProblem (strict : Bool) (depth : Nat) : String → PathProblem → Prop where
  | emptyToken : TokenProblem strict depth "" (.emptyToken depth)
  | reservedSeparator {token : String} :
    strict = true → '-' ∈ token.toList →
    TokenProblem strict depth token (.reservedSeparator token)

/-- The first problem of a text. -/
inductive FirstProblem (strict : Bool) (path : String) : Fault → Prop where
  | slash {fault : Fault} : SlashProblem path fault → FirstProblem strict path fault
  | token {root segment bad : String} {below before after good rest : List String}
      {problem : PathProblem} :
    -- the slashes are as they should be
    Segmented path (root :: below) → '|' ∉ root.toList → "" ∉ root :: below →
    -- so are the tokens up to the bad one
    root :: below = before ++ segment :: after →
    (∀ s ∈ before, ∃ alternatives, Offers s alternatives ∧ ∀ a ∈ alternatives, IsToken strict a) →
    Offers segment (good ++ bad :: rest) → (∀ a ∈ good, IsToken strict a) →
    TokenProblem strict before.length bad problem →
    FirstProblem strict path (.malformedPath path problem)

/-! ## Slashes -/

/-- The segments are what is cut off at the slashes, after an empty piece before the first. -/
theorem segmented_iff {path : String} {segs : List String} :
    Segmented path segs ↔ segs ≠ [] ∧ pieces levelSeparator path = "" :: segs := by
  constructor
  · rintro ⟨hne, hslash, rfl⟩
    -- joined with an empty text in front, the segments are what the slashes cut
    have hplain : ∀ s ∈ "" :: segs, levelSeparator ∉ s.toList :=
      List.forall_mem_cons.2 ⟨List.not_mem_nil, hslash⟩
    have hpieces := Text.pieces_joined levelSeparator (List.cons_ne_nil "" segs) hplain
    rw [Text.joined_empty_cons levelSeparator hne] at hpieces
    exact ⟨hne, hpieces⟩
  · rintro ⟨hne, hpieces⟩
    refine ⟨hne, fun s hs => ?_, ?_⟩
    · exact Text.not_mem_of_mem_pieces (hpieces ▸ List.mem_cons_of_mem "" hs)
    · have hjoined := Text.joined_pieces levelSeparator path
      rw [hpieces, Text.joined_empty_cons levelSeparator hne] at hjoined
      exact hjoined.symm

/-- A text that starts with a slash has segments. -/
theorem exists_segmented {path : String} (h : path.toList.head? = some '/') :
    ∃ root below, Segmented path (root :: below) := by
  obtain ⟨cs, hcs⟩ := List.head?_eq_some_iff.1 h
  have hpieces : pieces levelSeparator path = "" :: pieces levelSeparator (String.ofList cs) :=
    Text.pieces_of_toList_eq_cons hcs
  obtain ⟨root, below, hbelow⟩ :=
    List.exists_cons_of_ne_nil (Text.pieces_ne_nil levelSeparator (String.ofList cs))
  rw [hbelow] at hpieces
  exact ⟨root, below, segmented_iff.2 ⟨List.cons_ne_nil root below, hpieces⟩⟩

namespace Segmented

variable {path root : String} {segs below : List String}

/-- A text has its segments in one way only. -/
theorem unique {segs' : List String} (h : Segmented path segs) (h' : Segmented path segs') :
    segs = segs' := by
  have hpieces := (segmented_iff.1 h).2.symm.trans (segmented_iff.1 h').2
  exact List.tail_eq_of_cons_eq hpieces

/-- A slash and a segment after a text of segments. -/
theorem concat (h : Segmented path segs) {segment : String} (hslash : '/' ∉ segment.toList) :
    Segmented (path ++ "/" ++ segment) (segs ++ [segment]) where
  ne_nil := by simp
  no_slash := by
    intro s hs
    rcases List.mem_append.1 hs with hs | hs
    · exact h.no_slash s hs
    · rwa [List.mem_singleton.1 hs]
  text := by
    rw [List.map_append, String.join_append, ← h.text, String.append_assoc]
    simp

/-- A text of segments starts with a slash. -/
theorem head? (h : Segmented path segs) : path.toList.head? = some '/' := by
  obtain ⟨root, below, rfl⟩ := List.exists_cons_of_ne_nil h.ne_nil
  simp [h.text]

/-- The text ends with a slash when nothing stands after the last one. -/
theorem getLast?_eq_iff (h : Segmented path segs) :
    path.toList.getLast? = some '/' ↔ segs.getLast? = some "" := by
  obtain ⟨init, last, rfl⟩ := (List.eq_nil_or_concat' segs).resolve_left h.ne_nil
  have htext : path.toList =
      (String.join (init.map ("/" ++ ·))).toList ++ '/' :: last.toList := by
    simp [h.text]
  rw [htext, List.getLast?_append_cons, List.getLast?_concat, Option.some.injEq]
  cases hlast : last.toList.getLast? with
  | none =>
    rw [List.getLast?_eq_none_iff, String.toList_eq_nil_iff] at hlast
    simp [hlast]
  | some c =>
    -- a last segment that is something ends with a character of its own, which is no slash
    have hc := List.mem_of_getLast? hlast
    have hslash : c ≠ '/' := fun e => h.no_slash last (by simp) (e ▸ hc)
    have hne : last ≠ "" := by
      rintro rfl
      exact absurd hc List.not_mem_nil
    simp [List.getLast?_cons, hlast, hslash, hne]

/-- The checks of a text that is cut into segments, in the order in which they are made. -/
theorem segments_eq (h : Segmented path (root :: below)) :
    segments path =
      if (root :: below).getLast? = some "" then .error (.malformedPath path .trailingSeparator)
      else if '|' ∈ root.toList then .error (.rootAlternatives path)
      else
        match (root :: below).findIdx? (· = "") with
        | some depth => .error (.malformedPath path (.emptySegment depth))
        | none => .ok (root :: below) := by
  rw [segments, (segmented_iff.1 h).2]
  rfl

end Segmented

/-- A text that starts otherwise is refused for that. -/
theorem segments_of_no_slash {path : String} (h : path.toList.head? ≠ some '/') :
    segments path = .error (.malformedPath path .noLeadingSeparator) := by
  rw [segments]
  split
  · rename_i root below hpieces
    exact absurd (segmented_iff.2 ⟨List.cons_ne_nil root below, hpieces⟩).head? h
  · rfl

/-- No text is the empty one exactly if every text is something. -/
theorem not_contains_empty_iff {segs : List String} : "" ∉ segs ↔ ∀ s ∈ segs, s ≠ "" :=
  ⟨fun h _ hs e => h (e ▸ hs), fun h hs => h "" hs rfl⟩

/-- The segments of a text are those that the slashes make, none of them empty. -/
theorem segments_eq_ok_iff {path : String} {segs : List String} :
    segments path = .ok segs ↔ ∃ root below, segs = root :: below ∧
      Segmented path segs ∧ '|' ∉ root.toList ∧ "" ∉ segs := by
  by_cases hhead : path.toList.head? = some '/'
  · obtain ⟨root, below, h⟩ := exists_segmented hhead
    rw [h.segments_eq]
    -- the checks are gone through in their order; all are passed by what is accepted
    constructor
    · intro hok
      split at hok
      · exact nomatch hok
      · split at hok
        · exact nomatch hok
        · rename_i hbar
          split at hok
          · exact nomatch hok
          · rename_i hnone
            obtain rfl := Except.ok.inj hok
            rw [List.findIdx?_eq_none_iff] at hnone
            refine ⟨root, below, rfl, h, hbar, fun hmem => ?_⟩
            simpa using hnone "" hmem
    · rintro ⟨root', below', rfl, h', hbar, hempty⟩
      obtain ⟨rfl, rfl⟩ := List.cons.inj (h.unique h')
      -- where no segment is empty, the last one is not, so no slash stands at the end
      have hlast : (root :: below).getLast? ≠ some "" :=
        fun hlast => hempty (List.mem_of_getLast? hlast)
      have hnone : (root :: below).findIdx? (· = "") = none := by
        rw [List.findIdx?_eq_none_iff]
        intro s hs
        exact decide_eq_false fun e => hempty (e ▸ hs)
      rw [if_neg hlast, if_neg hbar, hnone]
  · rw [segments_of_no_slash hhead]
    simp only [reduceCtorEq, false_iff, not_exists, not_and]
    exact fun _ _ _ h => absurd h.head? hhead

/-- What is accepted is cut at its slashes. -/
theorem segmented_of_segments {path : String} {segs : List String} (h : segments path = .ok segs) :
    Segmented path segs := by
  obtain ⟨_, _, -, hsegmented, -, -⟩ := segments_eq_ok_iff.1 h
  exact hsegmented

/-- A path of labels is cut where it was joined. -/
theorem segments_ofSegments {labels : List String} (hne : labels ≠ [])
    (h : ∀ label ∈ labels, IsToken false label) : segments (ofSegments labels) = .ok labels := by
  obtain ⟨root, below, rfl⟩ := List.exists_cons_of_ne_nil hne
  exact segments_eq_ok_iff.2 ⟨root, below, rfl, ⟨hne, fun s hs => (h s hs).no_slash, rfl⟩,
    (h root List.mem_cons_self).no_bar, not_contains_empty_iff.2 fun s hs => (h s hs).ne_empty⟩

/-- One segment more is accepted if it is something. -/
theorem segments_concat_eq_ok_iff {path segment : String} {segs : List String}
    (h : segments path = .ok segs) (hslash : '/' ∉ segment.toList) :
    segments (path ++ "/" ++ segment) = .ok (segs ++ [segment]) ↔ segment ≠ "" := by
  obtain ⟨root, below, rfl, hsegmented, hbar, hempty⟩ := segments_eq_ok_iff.1 h
  rw [segments_eq_ok_iff]
  constructor
  · rintro ⟨_, _, -, -, -, hempty⟩ rfl
    exact hempty (by simp)
  · intro hne
    refine ⟨root, below ++ [segment], rfl, hsegmented.concat hslash, hbar, fun hmem => ?_⟩
    rcases List.mem_append.1 hmem with hmem | hmem
    · exact hempty hmem
    · exact hne (List.mem_singleton.1 hmem).symm

/-- The slashes of a text are refused for their first problem. -/
theorem segments_eq_error_iff {path : String} {fault : Fault} :
    segments path = .error fault ↔ SlashProblem path fault := by
  constructor
  · intro herror
    -- each check that fails gives its problem, those before it having been passed
    by_cases hhead : path.toList.head? = some '/'
    · obtain ⟨root, below, h⟩ := exists_segmented hhead
      rw [h.segments_eq] at herror
      split at herror
      · rename_i hlast
        obtain rfl := Except.error.inj herror
        exact .trailingSeparator hhead (h.getLast?_eq_iff.2 hlast)
      · rename_i hlast
        rw [← h.getLast?_eq_iff] at hlast
        split at herror
        · rename_i hbar
          obtain rfl := Except.error.inj herror
          exact .rootAlternatives h hlast hbar
        · rename_i hbar
          split at herror
          · rename_i depth hdepth
            obtain ⟨before, s, after, hsegs, hbefore, hs, rfl⟩ :=
              List.findIdx?_eq_some_iff_append.1 hdepth
            obtain rfl := of_decide_eq_true hs
            obtain rfl := Except.error.inj herror
            exact .emptySegment h hlast hbar hsegs
              (not_contains_empty_iff.2 fun s hs => of_decide_eq_false (hbefore s hs))
          · exact nomatch herror
    · rw [segments_of_no_slash hhead] at herror
      obtain rfl := Except.error.inj herror
      exact .noLeadingSeparator hhead
  · intro hproblem
    -- conversely, a problem comes with what the checks before it need
    cases hproblem with
    | noLeadingSeparator hhead => exact segments_of_no_slash hhead
    | trailingSeparator hhead hlast =>
      obtain ⟨root, below, h⟩ := exists_segmented hhead
      rw [h.segments_eq, if_pos (h.getLast?_eq_iff.1 hlast)]
    | rootAlternatives h hlast hbar =>
      rw [ne_eq, h.getLast?_eq_iff] at hlast
      rw [h.segments_eq, if_neg hlast, if_pos hbar]
    | @emptySegment root below before after h hlast hbar hsegs hbefore =>
      have hdepth : (root :: below).findIdx? (· = "") = some before.length :=
        List.findIdx?_eq_some_iff_append.2 ⟨before, "", after, hsegs,
          fun s hs => decide_eq_false (not_contains_empty_iff.1 hbefore s hs), rfl, rfl⟩
      rw [ne_eq, h.getLast?_eq_iff] at hlast
      rw [h.segments_eq, if_neg hlast, if_neg hbar, hdepth]

/-! ## Bars -/

/-- The alternatives are what is cut off at the bars. -/
theorem offers_iff {segment : String} {alternatives : List String} :
    Offers segment alternatives ↔ pieces alternativeSeparator segment = alternatives := by
  constructor
  · rintro ⟨hne, hbar, rfl⟩
    exact Text.pieces_joined alternativeSeparator hne hbar
  · rintro rfl
    exact ⟨Text.pieces_ne_nil _ _, fun _ ha => Text.not_mem_of_mem_pieces ha,
      (Text.joined_pieces alternativeSeparator segment).symm⟩

/-- An alternative is refused for the problem that keeps it from being a token. -/
theorem tokenProblem?_eq_some_iff {strict : Bool} {depth : Nat} {token : String}
    {problem : PathProblem} :
    tokenProblem? strict depth token = some problem ↔ TokenProblem strict depth token problem := by
  constructor
  · intro h
    rw [tokenProblem?] at h
    split at h
    · rename_i hempty
      obtain rfl := Option.some.inj h
      exact hempty ▸ .emptyToken
    · split at h
      · rename_i hdash
        obtain rfl := Option.some.inj h
        exact .reservedSeparator hdash.1 hdash.2
      · exact nomatch h
  · intro h
    cases h with
    | emptyToken => rfl
    | reservedSeparator hstrict hdash =>
      -- a token with a dash in it is not empty, so the first check is passed
      have hne : token ≠ "" := by
        rintro rfl
        exact absurd hdash List.not_mem_nil
      rw [tokenProblem?, if_neg hne, if_pos ⟨hstrict, hdash⟩]

/-- An alternative of a segment without slashes has no problem when it is a token. -/
theorem tokenProblem?_eq_none_iff_isToken {strict : Bool} {depth : Nat} {segment token : String}
    (hsegment : '/' ∉ segment.toList) (htoken : token ∈ pieces alternativeSeparator segment) :
    tokenProblem? strict depth token = none ↔ IsToken strict token := by
  -- a piece of a segment holds neither a slash nor a bar
  have hslash := Text.not_mem_of_mem_pieces_of_not_mem hsegment htoken
  have hbar := Text.not_mem_of_mem_pieces htoken
  rw [tokenProblem?_eq_none_iff]
  constructor
  · rintro ⟨hne, hdash⟩
    exact ⟨hne, hslash, hbar, fun hstrict hmem => hdash ⟨hstrict, hmem⟩⟩
  · rintro ⟨hne, -, -, hdash⟩
    exact ⟨hne, fun h => hdash h.1 h.2⟩

/-- A segment without slashes is accepted when it offers tokens. -/
theorem tokens_eq_ok_iff_offers {strict : Bool} {path segment : String} {depth : Nat}
    {ts : List String} (hslash : '/' ∉ segment.toList) :
    tokens strict path depth segment = .ok ts ↔ ∃ alternatives, Offers segment alternatives ∧
      (∀ a ∈ alternatives, IsToken strict a) ∧ alternatives.eraseDups = ts := by
  simp only [tokens_eq_ok_iff, offers_iff, exists_eq_left']
  exact and_congr_left fun _ => forall₂_congr fun _ => tokenProblem?_eq_none_iff_isToken hslash

/-- The alternatives of an accepted segment without slashes are tokens. -/
theorem isToken_of_tokens {strict : Bool} {path segment : String} {depth : Nat} {ts : List String}
    (h : tokens strict path depth segment = .ok ts) (hslash : '/' ∉ segment.toList) :
    ∀ token ∈ ts, IsToken strict token := by
  obtain ⟨alternatives, -, htokens, rfl⟩ := (tokens_eq_ok_iff_offers hslash).1 h
  exact fun token htoken => htokens token (List.mem_eraseDups.1 htoken)

/-- A segment without slashes is refused for its leftmost alternative that is no token. -/
theorem tokens_eq_error_iff {strict : Bool} {path segment : String} {depth : Nat} {fault : Fault}
    (hslash : '/' ∉ segment.toList) :
    tokens strict path depth segment = .error fault ↔ ∃ good bad rest problem,
      Offers segment (good ++ bad :: rest) ∧ (∀ a ∈ good, IsToken strict a) ∧
      TokenProblem strict depth bad problem ∧ fault = .malformedPath path problem := by
  -- the alternatives before the bad one are pieces of the segment too
  have hgood : ∀ {good rest : List String} {bad : String},
      pieces alternativeSeparator segment = good ++ bad :: rest →
      ((∀ a ∈ good, tokenProblem? strict depth a = none) ↔ ∀ a ∈ good, IsToken strict a) := by
    intro good rest bad hpieces
    refine forall₂_congr fun a ha => tokenProblem?_eq_none_iff_isToken hslash ?_
    exact hpieces ▸ List.mem_append_left _ ha
  constructor
  · intro herror
    rw [tokens] at herror
    split at herror
    · rename_i problem hproblem
      obtain rfl := Except.error.inj herror
      obtain ⟨good, bad, rest, hpieces, hbad, hnone⟩ := List.findSome?_eq_some_iff.1 hproblem
      exact ⟨good, bad, rest, problem, offers_iff.2 hpieces, (hgood hpieces).1 hnone,
        tokenProblem?_eq_some_iff.1 hbad, rfl⟩
    · cases herror
  · rintro ⟨good, bad, rest, problem, hoffers, htokens, hbad, rfl⟩
    have hpieces := offers_iff.1 hoffers
    have hproblem : (pieces alternativeSeparator segment).findSome? (tokenProblem? strict depth) =
        some problem :=
      List.findSome?_eq_some_iff.2 ⟨good, bad, rest, hpieces, tokenProblem?_eq_some_iff.2 hbad,
        (hgood hpieces).2 htokens⟩
    rw [tokens, hproblem]

/-! ## Whole texts -/

/-- The levels that the alternatives of each depth are read as: each level has its depth, and the
first occurrences of its alternatives. -/
def levelsOf (offered : List (List String)) : List Level :=
  offered.zipIdx.map fun (alternatives, depth) => { depth, tokens := alternatives.eraseDups }

/-- The tokens of the level at depth `d`, none where there is no such level. -/
def tokensAt (levels : List Level) (d : Nat) : List String :=
  (levels[d]?.map Level.tokens).getD []

/-- A token at some depth is one of a level. -/
theorem exists_mem_of_mem_tokensAt {levels : List Level} {d : Nat} {token : String}
    (h : token ∈ tokensAt levels d) : ∃ level ∈ levels, token ∈ level.tokens := by
  rw [tokensAt] at h
  cases hlevel : levels[d]? with
  | none =>
    rw [hlevel] at h
    exact absurd h List.not_mem_nil
  | some level =>
    rw [hlevel] at h
    exact ⟨level, List.mem_of_getElem? hlevel, h⟩

/-- At each depth the tokens are the first occurrences of the alternatives. -/
theorem tokensAt_levelsOf (offered : List (List String)) (d : Nat) :
    tokensAt (levelsOf offered) d = (offered.getD d []).eraseDups := by
  rw [tokensAt, levelsOf, List.getElem?_map, List.getElem?_zipIdx, List.getD_eq_getElem?_getD]
  cases offered[d]? <;> simp

/-- The levels are those of the segments, cut at the bars, when all pieces are tokens. -/
theorem parse_eq_ok_iff_pieces {strict : Bool} {path : String} {levels : List Level} :
    parse strict path = .ok levels ↔ ∃ segs, segments path = .ok segs ∧
      (∀ s ∈ segs, ∀ a ∈ pieces alternativeSeparator s, IsToken strict a) ∧
      levelsOf (segs.map (pieces alternativeSeparator)) = levels := by
  -- one segment with its depth, and the level that is read from it
  have hentry : ∀ (entry : String × Nat) (level : Level),
      (level.depth = entry.2 ∧ tokens strict path entry.2 entry.1 = .ok level.tokens) ↔
        (∀ a ∈ pieces alternativeSeparator entry.1, tokenProblem? strict entry.2 a = none) ∧
          Level.mk entry.2 (pieces alternativeSeparator entry.1).eraseDups = level := by
    intro entry level
    obtain ⟨depth, ts⟩ := level
    rw [tokens_eq_ok_iff, Level.mk.injEq, and_left_comm, eq_comm]
  rw [parse_eq_ok_iff]
  -- all segments at once: the levels on the one side, the checks of their alternatives on the other
  refine exists_congr fun segs => and_congr_right fun hsegs => ?_
  have hseg := segmented_of_segments hsegs
  simp only [hentry]
  rw [List.forall₂_and_left, ← List.forall₂_map_left_iff (R := Eq), List.forall₂_eq_eq_eq, levelsOf,
    List.zipIdx_map, List.map_map]
  refine and_congr_left fun _ => ?_
  -- whether there is a problem does not depend on the depth
  have hproblem : ∀ s ∈ segs, ∀ a ∈ pieces alternativeSeparator s, ∀ depth,
      tokenProblem? strict depth a = none ↔ IsToken strict a :=
    fun s hs _ ha _ => tokenProblem?_eq_none_iff_isToken (hseg.no_slash s hs) ha
  constructor
  · intro hnone s hs a ha
    obtain ⟨depth, hmem⟩ := List.exists_mem_zipIdx_of_mem hs 0
    exact (hproblem s hs a ha depth).1 (hnone (s, depth) hmem a ha)
  · rintro htokens ⟨s, depth⟩ hmem a ha
    have hs := List.fst_mem_of_mem_zipIdx hmem
    exact (hproblem s hs a ha depth).2 (htokens s hs a ha)

/-- A text that is accepted has a level at least. -/
theorem ne_nil_of_parse {strict : Bool} {path : String} {levels : List Level}
    (h : parse strict path = .ok levels) : levels ≠ [] := by
  obtain ⟨segs, hsegs, -, rfl⟩ := parse_eq_ok_iff_pieces.1 h
  obtain ⟨root, below, rfl, -, -, -⟩ := segments_eq_ok_iff.1 hsegs
  simp [levelsOf]

/-- Alternatives after the others make one level more, at the next depth. -/
theorem levelsOf_concat (offered : List (List String)) (alternatives : List String) :
    levelsOf (offered ++ [alternatives]) =
      levelsOf offered ++ [{ depth := offered.length, tokens := alternatives.eraseDups }] := by
  rw [levelsOf, levelsOf, List.zipIdx_append, List.map_append]
  simp

/-- A segment more is a level more. -/
theorem parse_concat {strict : Bool} {path segment : String} {levels levels' : List Level}
    (h : parse strict path = .ok levels) (hslash : '/' ∉ segment.toList)
    (h' : parse strict (path ++ "/" ++ segment) = .ok levels') :
    segment ≠ "" ∧ (∀ a ∈ pieces alternativeSeparator segment, IsToken strict a) ∧
      levels' = levels ++ [{
        depth := levels.length, tokens := (pieces alternativeSeparator segment).eraseDups }] := by
  obtain ⟨segs, hsegs, htokens, rfl⟩ := parse_eq_ok_iff_pieces.1 h
  -- the longer text has the same segments and one more
  obtain ⟨segs', hsegs', htokens', rfl⟩ := parse_eq_ok_iff_pieces.1 h'
  obtain rfl := (segmented_of_segments hsegs').unique
    ((segmented_of_segments hsegs).concat hslash)
  refine ⟨(segments_concat_eq_ok_iff hsegs hslash).1 hsegs', htokens' segment (by simp), ?_⟩
  rw [List.map_append, List.map_singleton, levelsOf_concat, levelsOf, List.length_map,
    List.length_map, List.length_zipIdx, List.length_map]

/-- Alternatives without slashes are joined to segments without slashes. -/
theorem segmented_join {root : String} {below : List (List String)} (hroot : '/' ∉ root.toList)
    (hbelow : ∀ alternatives ∈ below, ∀ a ∈ alternatives, '/' ∉ a.toList) :
    Segmented ("/" ++ root ++
      String.join (below.map fun alternatives => "/" ++ "|".intercalate alternatives))
      (root :: below.map (joined alternativeSeparator)) where
  ne_nil := List.cons_ne_nil _ _
  no_slash := by
    refine List.forall_mem_cons.2 ⟨hroot, ?_⟩
    intro segment hsegment
    obtain ⟨alternatives, halternatives, rfl⟩ := List.mem_map.1 hsegment
    exact Text.not_mem_toList_joined (by decide) (hbelow alternatives halternatives)
  text := by
    rw [List.map_cons, String.join_cons, List.map_map]
    rfl

namespace Writes

variable {strict : Bool} {path root : String} {below : List (List String)}

/-- A text of levels is one of segments, which offer the alternatives. -/
theorem segmented (h : Writes strict path root below) :
    Segmented path (root :: below.map (joined alternativeSeparator)) := by
  rw [h.text]
  exact segmented_join h.root_isToken.no_slash
    fun alternatives halternatives a ha => (h.isToken alternatives halternatives a ha).no_slash

/-- The segments of a text of levels are accepted. -/
theorem segments_eq (h : Writes strict path root below) :
    segments path = .ok (root :: below.map (joined alternativeSeparator)) := by
  refine segments_eq_ok_iff.2 ⟨root, _, rfl, h.segmented, h.root_isToken.no_bar, ?_⟩
  refine not_contains_empty_iff.2 (List.forall_mem_cons.2 ⟨h.root_isToken.ne_empty, ?_⟩)
  rw [List.forall_mem_map]
  intro alternatives halternatives
  obtain ⟨a, ha⟩ := List.exists_mem_of_ne_nil _ (h.ne_nil alternatives halternatives)
  exact Text.joined_ne_empty ha (h.isToken alternatives halternatives a ha).ne_empty

/-- Tokens hold no bar, so the segments are cut into the alternatives that they were joined from. -/
theorem map_pieces (h : Writes strict path root below) :
    (root :: below.map (joined alternativeSeparator)).map (pieces alternativeSeparator) =
      [root] :: below := by
  have hroot : pieces alternativeSeparator root = [root] :=
    Text.pieces_eq_singleton h.root_isToken.no_bar
  -- each level was joined of tokens, which hold no bar
  have hbelow : ∀ alternatives ∈ below,
      pieces alternativeSeparator (joined alternativeSeparator alternatives) = alternatives := by
    intro alternatives halternatives
    exact Text.pieces_joined alternativeSeparator (h.ne_nil alternatives halternatives)
      fun a ha => (h.isToken alternatives halternatives a ha).no_bar
  rw [List.map_cons, hroot, List.map_map]
  exact congrArg _ ((List.map_congr_left hbelow).trans (List.map_id below))

end Writes

/-- What is accepted is what the notation writes. -/
theorem parse_eq_ok_iff_writes {strict : Bool} {path : String} {levels : List Level} :
    parse strict path = .ok levels ↔ ∃ root below, Writes strict path root below ∧
      levels = levelsOf ([root] :: below) := by
  rw [parse_eq_ok_iff_pieces]
  constructor
  · rintro ⟨segs, hsegs, htokens, rfl⟩
    obtain ⟨root, below, rfl, hseg, hbar, hempty⟩ := segments_eq_ok_iff.1 hsegs
    have hroot : pieces alternativeSeparator root = [root] := Text.pieces_eq_singleton hbar
    -- what is written below the root are the pieces of the other segments
    refine ⟨root, below.map (pieces alternativeSeparator), ⟨?_, ?_, ?_, ?_⟩, ?_⟩
    · exact htokens root List.mem_cons_self root (hroot ▸ List.mem_singleton_self root)
    · intro alternatives halternatives
      obtain ⟨s, -, rfl⟩ := List.mem_map.1 halternatives
      exact Text.pieces_ne_nil alternativeSeparator s
    · intro alternatives halternatives
      obtain ⟨s, hs, rfl⟩ := List.mem_map.1 halternatives
      exact htokens s (List.mem_cons_of_mem root hs)
    · -- every segment is its pieces, joined again
      have hbelow : ∀ s ∈ below,
          "/" ++ s = "/" ++ "|".intercalate (pieces alternativeSeparator s) :=
        fun s _ => congrArg ("/" ++ ·) (Text.joined_pieces alternativeSeparator s).symm
      rw [hseg.text, List.map_cons, String.join_cons, List.map_map, List.map_congr_left hbelow]
      rfl
    · rw [List.map_cons, hroot]
  · rintro ⟨root, below, h, rfl⟩
    refine ⟨_, h.segments_eq, fun s hs a ha => ?_, congrArg levelsOf h.map_pieces⟩
    have hmem : pieces alternativeSeparator s ∈ [root] :: below :=
      h.map_pieces ▸ List.mem_map_of_mem hs
    -- the pieces of a segment are the root alone, or the alternatives of a level below
    rcases List.mem_cons.1 hmem with hroot | hbelow
    · rw [hroot, List.mem_singleton] at ha
      exact ha ▸ h.root_isToken
    · exact h.isToken _ hbelow a ha

/-- Every alternative of an accepted text is a token. -/
theorem isToken_of_parse {strict : Bool} {path : String} {levels : List Level}
    (h : parse strict path = .ok levels) :
    ∀ level ∈ levels, ∀ token ∈ level.tokens, IsToken strict token := by
  intro level hlevel token htoken
  obtain ⟨root, below, hwrites, rfl⟩ := parse_eq_ok_iff_writes.1 h
  obtain ⟨⟨alternatives, depth⟩, hmem, rfl⟩ := List.mem_map.1 hlevel
  -- a token of a level is an alternative of its segment
  have htoken := List.mem_eraseDups.1 htoken
  rcases List.mem_cons.1 (List.fst_mem_of_mem_zipIdx hmem) with rfl | hbelow
  · rw [List.mem_singleton.1 htoken]
    exact hwrites.root_isToken
  · exact hwrites.isToken alternatives hbelow token htoken

/-- A text is refused for its slashes, or for the first segment that is refused. -/
theorem parse_eq_error_iff_tokens {strict : Bool} {path : String} {fault : Fault} :
    parse strict path = .error fault ↔ segments path = .error fault ∨
      ∃ before segment after, segments path = .ok (before ++ segment :: after) ∧
        (∀ entry ∈ before.zipIdx, ∃ ts, tokens strict path entry.2 entry.1 = .ok ts) ∧
        tokens strict path before.length segment = .error fault := by
  rw [parse, Except.bind_eq_error_iff]
  refine or_congr_right ⟨?_, ?_⟩
  · rintro ⟨segs, hsegs, herror⟩
    obtain ⟨before, ⟨segment, depth⟩, after, hzip, hbefore, hsegment⟩ :=
      List.mapM_eq_error_iff.1 herror
    -- the entries up to the failure are the segments up to it, with their depths
    obtain ⟨before, rest, rfl, rfl, hrest⟩ := List.zipIdx_eq_append_iff.1 hzip
    obtain ⟨segment, after, rfl, hentry, -⟩ := List.zipIdx_eq_cons_iff.1 hrest.symm
    obtain ⟨rfl, rfl⟩ := Prod.mk.inj hentry
    refine ⟨before, segment, after, hsegs, fun entry hentry => ?_, ?_⟩
    · obtain ⟨level, hlevel⟩ := hbefore entry hentry
      obtain ⟨ts, hts, -⟩ := Except.bind_eq_ok_iff.1 hlevel
      exact ⟨ts, hts⟩
    · rcases Except.bind_eq_error_iff.1 hsegment with h | ⟨ts, -, h⟩
      · rwa [Nat.zero_add] at h
      · cases h
  · -- put together again: the segments before are accepted, and this one is not
    rintro ⟨before, segment, after, hsegs, hbefore, hsegment⟩
    refine ⟨_, hsegs, List.mapM_eq_error_iff.2 ⟨before.zipIdx, (segment, before.length),
      after.zipIdx (before.length + 1), ?_, fun entry hentry => ?_, ?_⟩⟩
    · rw [List.zipIdx_append, List.zipIdx_cons, Nat.zero_add]
    · obtain ⟨ts, hts⟩ := hbefore entry hentry
      exact ⟨_, Except.bind_eq_ok_iff.2 ⟨ts, hts, rfl⟩⟩
    · exact Except.bind_eq_error_iff.2 (.inl hsegment)

/-- What is refused is refused for its first problem. -/
theorem parse_eq_error_iff {strict : Bool} {path : String} {fault : Fault} :
    parse strict path = .error fault ↔ FirstProblem strict path fault := by
  rw [parse_eq_error_iff_tokens, segments_eq_error_iff]
  constructor
  · rintro (h | ⟨before, segment, after, hsegs, hbefore, hsegment⟩)
    · exact .slash h
    · obtain ⟨root, below, hsegs, hseg, hbar, hempty⟩ := segments_eq_ok_iff.1 hsegs
      rw [hsegs] at hseg hempty
      -- the segments are cut off at the slashes, so none holds one
      have hslash : ∀ s ∈ before ++ segment :: after, '/' ∉ s.toList := hsegs ▸ hseg.no_slash
      obtain ⟨good, bad, rest, problem, hoffers, hgood, hproblem, rfl⟩ :=
        (tokens_eq_error_iff (hslash segment (by simp))).1 hsegment
      refine .token hseg hbar hempty hsegs.symm (fun s hs => ?_) hoffers hgood hproblem
      obtain ⟨depth, hentry⟩ := List.exists_mem_zipIdx_of_mem hs 0
      obtain ⟨ts, hts⟩ := hbefore (s, depth) hentry
      obtain ⟨alternatives, hoffers, htokens, -⟩ :=
        (tokens_eq_ok_iff_offers (hslash s (List.mem_append_left _ hs))).1 hts
      exact ⟨alternatives, hoffers, htokens⟩
  · intro h
    cases h with
    | slash h => exact .inl h
    | @token root segment bad below before after good rest problem hseg hbar hempty hsegs hbefore
        hoffers hgood hproblem =>
      have hslash : ∀ s ∈ before ++ segment :: after, '/' ∉ s.toList := hsegs ▸ hseg.no_slash
      refine .inr ⟨before, segment, after, ?_, fun entry hentry => ?_, ?_⟩
      · exact segments_eq_ok_iff.2 ⟨root, below, hsegs.symm, hsegs ▸ hseg, hbar, hsegs ▸ hempty⟩
      · have hs := List.fst_mem_of_mem_zipIdx hentry
        obtain ⟨alternatives, hoffers, htokens⟩ := hbefore entry.1 hs
        exact ⟨_, (tokens_eq_ok_iff_offers (hslash entry.1 (List.mem_append_left _ hs))).2
          ⟨alternatives, hoffers, htokens, rfl⟩⟩
      · exact (tokens_eq_error_iff (hslash segment (by simp))).2
          ⟨good, bad, rest, problem, hoffers, hgood, hproblem, rfl⟩

/-- A text is accepted exactly when the notation writes it, and is read as the levels written.
Every other text is refused, and for its first problem: that of its slashes, then a bar in the root
segment, then an empty segment, then the leftmost alternative of the least depth that is no
token. -/
theorem parse_decides (strict : Bool) (path : String) :
    (∀ levels, parse strict path = .ok levels ↔ ∃ root below, Writes strict path root below ∧
      levels = levelsOf ([root] :: below)) ∧
    ∀ fault, parse strict path = .error fault ↔ FirstProblem strict path fault :=
  ⟨fun _ => parse_eq_ok_iff_writes, fun _ => parse_eq_error_iff⟩

example : parse false "/a|b/" = .error (.malformedPath "/a|b/" .trailingSeparator) := by cbv

example : parse true "/a/b|c-d|" =
    .error (.malformedPath "/a/b|c-d|" (.reservedSeparator "c-d")) := by
  cbv

end ComboTree.PathStructure
