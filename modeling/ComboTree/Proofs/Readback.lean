import ComboTree.Proofs.Language
import ComboTree.Proofs.RoundTrip

/-!
# Reading a collapsed expansion

Collapsing cuts every label at its dashes and writes the pieces as they come.  A token with a dash
at one end of it, or with two dashes side by side, has an empty piece, and an empty alternative is
none in the notation.  So the text of a collapsed expansion is read again just when no token below
the root is such a one.  Otherwise it is refused: for a slash at its end, for two slashes side by
side, or for the empty alternative.

## Key results

- `Combination.empty_mem_labelTokens_iff`: the tokens with an empty piece
- `WritesPieces.parse_eq_ok_iff`, `WritesPieces.parse_eq_error`: what is read, and what is refused
- `Tree.parse_collapse_expand`: both, for the text of a collapsed expansion
-/

namespace ComboTree

open Text (pieces joined)
open PathStructure (parse IsToken Writes Segmented Offers levelsOf alternativeSeparator
  memberSeparator)

/-! ## Empty pieces -/

/-- A dash with nothing on one side of it, or with another dash there. -/
def Dangling (token : String) : Prop :=
  token.toList.head? = some '-' ∨ token.toList.getLast? = some '-' ∨ ['-', '-'] <:+: token.toList

instance (token : String) : Decidable (Dangling token) :=
  inferInstanceAs (Decidable (_ ∨ _ ∨ _))

/-- A token that is something has an empty piece just when a dash of it is dangling. -/
theorem Combination.empty_mem_labelTokens_iff {token : String} (hne : token ≠ "") :
    "" ∈ labelTokens token ↔ Dangling token := by
  rw [labelTokens, Text.empty_mem_pieces_iff, or_iff_right hne]
  rfl

/-- A piece of a token is a token, if it is not empty. -/
theorem isToken_of_mem_labelTokens {strict : Bool} {token piece : String}
    (h : IsToken strict token) (hpiece : piece ∈ Combination.labelTokens token)
    (hne : piece ≠ "") : IsToken strict piece where
  ne_empty := hne
  no_slash := Text.not_mem_of_mem_pieces_of_not_mem h.no_slash hpiece
  no_bar := Text.not_mem_of_mem_pieces_of_not_mem h.no_bar hpiece
  no_dash := fun _ => Text.not_mem_of_mem_pieces hpiece

/-! ## Texts with empty alternatives -/

/-- A text as in the notation, but for alternatives that may be empty. -/
structure WritesPieces (strict : Bool) (path root : String) (below : List (List String)) :
    Prop where
  root_isToken : IsToken strict root
  ne_nil : ∀ alternatives ∈ below, alternatives ≠ []
  isToken : ∀ alternatives ∈ below, ∀ a ∈ alternatives, a ≠ "" → IsToken strict a
  text : path = "/" ++ root ++
    String.join (below.map fun alternatives => "/" ++ "|".intercalate alternatives)

namespace WritesPieces

variable {strict : Bool} {path root : String} {below : List (List String)}

/-- What no token holds, no alternative holds. -/
theorem not_mem (h : WritesPieces strict path root below) {c : Char}
    (hc : ∀ token, IsToken strict token → c ∉ token.toList) {alternatives : List String}
    (halternatives : alternatives ∈ below) : ∀ a ∈ alternatives, c ∉ a.toList := by
  intro a ha
  by_cases hne : a = ""
  · simp [hne]
  · exact hc a (h.isToken alternatives halternatives a ha hne)

/-- The segments of the text are what its slashes were put between. -/
theorem segmented (h : WritesPieces strict path root below) :
    Segmented path (root :: below.map (joined alternativeSeparator)) := by
  rw [h.text]
  exact PathStructure.segmented_join h.root_isToken.no_slash
    fun _ => h.not_mem fun _ ht => ht.no_slash

/-- A segment offers the alternatives that were joined to it. -/
theorem offers (h : WritesPieces strict path root below) {alternatives : List String}
    (halternatives : alternatives ∈ below) :
    Offers (joined alternativeSeparator alternatives) alternatives :=
  ⟨h.ne_nil alternatives halternatives, h.not_mem (fun _ ht => ht.no_bar) halternatives, rfl⟩

/-- What a segment offers are the alternatives that were written. -/
theorem isToken_of_offers (h : WritesPieces strict path root below) {segment : String}
    {alternatives : List String}
    (hsegment : segment ∈ root :: below.map (joined alternativeSeparator))
    (hoffers : Offers segment alternatives) {a : String} (ha : a ∈ alternatives) (hne : a ≠ "") :
    IsToken strict a := by
  rw [← PathStructure.offers_iff.1 hoffers] at ha
  rcases List.mem_cons.1 hsegment with rfl | hsegment
  · have hroot : pieces alternativeSeparator segment = [segment] :=
      Text.pieces_eq_singleton h.root_isToken.no_bar
    rw [hroot, List.mem_singleton] at ha
    exact ha ▸ h.root_isToken
  · obtain ⟨written, hwritten, rfl⟩ := List.mem_map.1 hsegment
    rw [PathStructure.offers_iff.1 (h.offers hwritten)] at ha
    exact h.isToken written hwritten a ha hne

/-- Without an empty alternative the text is one of the notation. -/
theorem writes (h : WritesPieces strict path root below)
    (hempty : ∀ alternatives ∈ below, "" ∉ alternatives) : Writes strict path root below where
  root_isToken := h.root_isToken
  ne_nil := h.ne_nil
  isToken := by
    intro alternatives halternatives a ha
    have hne : a ≠ "" := fun e => hempty alternatives halternatives (e ▸ ha)
    exact h.isToken alternatives halternatives a ha hne
  text := h.text

/-- The text is read as what was written, if no alternative is empty, and not at all otherwise. -/
theorem parse_eq_ok_iff (h : WritesPieces strict path root below) {levels : List Level} :
    parse strict path = .ok levels ↔
      (∀ alternatives ∈ below, "" ∉ alternatives) ∧ levels = levelsOf ([root] :: below) := by
  constructor
  · intro hparse
    obtain ⟨segs, hsegs, htokens, -⟩ := PathStructure.parse_eq_ok_iff_pieces.1 hparse
    obtain rfl := (PathStructure.segmented_of_segments hsegs).unique h.segmented
    have hempty : ∀ alternatives ∈ below, "" ∉ alternatives := by
      intro alternatives halternatives hmem
      -- the segment is cut into the alternatives again, all of which are tokens
      have hpieces := PathStructure.offers_iff.1 (h.offers halternatives)
      have hsegment := List.mem_map_of_mem (f := joined alternativeSeparator) halternatives
      have htoken := htokens _ (List.mem_cons_of_mem root hsegment) ""
      rw [hpieces] at htoken
      exact (htoken hmem).ne_empty rfl
    refine ⟨hempty, ?_⟩
    have hwritten := PathStructure.parse_eq_ok_iff_writes.2 ⟨root, below, h.writes hempty, rfl⟩
    exact Except.ok.inj (hparse.symm.trans hwritten)
  · rintro ⟨hempty, rfl⟩
    exact PathStructure.parse_eq_ok_iff_writes.2 ⟨root, below, h.writes hempty, rfl⟩

/-- The only problems are those that an empty alternative makes. -/
theorem parse_eq_error (h : WritesPieces strict path root below) {fault : Fault}
    (hparse : parse strict path = .error fault) : ∃ depth problem,
      fault = .malformedPath path problem ∧
      problem ∈ [.trailingSeparator, .emptySegment depth, .emptyToken depth] := by
  have hhead := h.segmented.head?
  -- problem by problem: those of characters cannot be, and those of empty parts are named
  cases PathStructure.parse_eq_error_iff.1 hparse with
  | slash hslash =>
    cases hslash with
    | noLeadingSeparator hnone => exact absurd hhead hnone
    | trailingSeparator =>
      -- there is no depth in this problem, so any will do
      exact ⟨0, _, rfl, by simp⟩
    | rootAlternatives hsegs _ hbar =>
      -- the root segment is the root token, which holds no bar
      obtain ⟨rfl, -⟩ := List.cons.inj (hsegs.unique h.segmented)
      exact absurd hbar h.root_isToken.no_bar
    | emptySegment => exact ⟨_, _, rfl, List.mem_cons_of_mem _ List.mem_cons_self⟩
  | @token _ segment bad _ _ _ _ _ _ hsegs _ _ hsplit _ hoffers _ hproblem =>
    cases hproblem with
    | emptyToken =>
      exact ⟨_, _, rfl, List.mem_cons_of_mem _ (List.mem_cons_of_mem _ List.mem_cons_self)⟩
    | reservedSeparator hstrict hdash =>
      -- in the strict form neither the root nor an alternative that is something holds a dash
      rw [hsegs.unique h.segmented] at hsplit
      have hne : bad ≠ "" := by
        rintro rfl
        simp at hdash
      have htoken := h.isToken_of_offers (by simp [hsplit]) hoffers (by simp) hne
      exact absurd hdash (htoken.no_dash hstrict)

end WritesPieces

/-! ## Collapsed expansions -/

/-- The pieces of the distinct tokens of a level, in the order in which collapsing writes them. -/
def Level.pieces (level : Level) : List String :=
  ((distinctSorted level.tokens).flatMap Combination.labelTokens).eraseDups

/-- The pieces of a level are those of its tokens. -/
theorem Level.mem_pieces_iff {level : Level} {piece : String} :
    piece ∈ level.pieces ↔ ∃ token ∈ level.tokens, piece ∈ Combination.labelTokens token := by
  simp only [Level.pieces, List.mem_eraseDups, List.mem_flatMap, mem_distinctSorted]

/-- A level has an empty piece if one of its tokens is dangling. -/
theorem Level.empty_mem_pieces_iff {level : Level} (h : ∀ token ∈ level.tokens, token ≠ "") :
    "" ∈ level.pieces ↔ ∃ token ∈ level.tokens, Dangling token := by
  rw [Level.mem_pieces_iff]
  refine exists_congr fun token => and_congr_right fun htoken => ?_
  exact Combination.empty_mem_labelTokens_iff (h token htoken)

/-- A level with tokens has pieces. -/
theorem Level.pieces_ne_nil {level : Level} (h : level.tokens ≠ []) : level.pieces ≠ [] := by
  obtain ⟨token, htoken⟩ := List.exists_mem_of_ne_nil _ h
  obtain ⟨piece, hpiece⟩ := List.exists_mem_of_ne_nil _ (Text.pieces_ne_nil memberSeparator token)
  exact List.ne_nil_of_mem (Level.mem_pieces_iff.2 ⟨token, htoken, hpiece⟩)

namespace Tree

/-- An expansion collapses into a text of the pieces of its levels. -/
theorem writesPieces_collapse_expand {policy : Policy} {path : String} {t : Tree}
    (h : policy.expand path = .ok t) (validate : Bool) : ∃ root label below collapsed,
      parse policy.strict path = .ok (root :: below) ∧ root.tokens = [label] ∧
      t.collapse validate = .ok collapsed ∧
      WritesPieces policy.strict collapsed label (below.map Level.pieces) := by
  obtain ⟨root, label, below, hparse, hroot, rfl, hne⟩ := exists_product_of_expand h
  have htokens := PathStructure.isToken_of_parse hparse
  have hcollapse := collapse_product label hne validate
  rw [List.map_map] at hcollapse
  simp only [Function.comp_def, eraseDups_labelTokens_combinationLabels] at hcollapse
  refine ⟨root, label, below, _, hparse, hroot, hcollapse, ?_⟩
  -- the pieces come from tokens that were read, and keep all of what those are but one thing
  constructor
  case root_isToken => exact htokens root List.mem_cons_self label (by simp [hroot])
  case ne_nil =>
    intro alternatives halternatives
    obtain ⟨level, hlevel, rfl⟩ := List.mem_map.1 halternatives
    have hlevel := List.mem_cons_of_mem root hlevel
    exact Level.pieces_ne_nil (PathStructure.tokens_ne_nil_of_parse hparse hlevel)
  case isToken =>
    intro alternatives halternatives piece hpiece hne
    obtain ⟨level, hlevel, rfl⟩ := List.mem_map.1 halternatives
    obtain ⟨token, htoken, hpiece⟩ := Level.mem_pieces_iff.1 hpiece
    have htoken := htokens level (List.mem_cons_of_mem root hlevel) token htoken
    exact isToken_of_mem_labelTokens htoken hpiece hne
  case text =>
    rw [List.map_map]
    rfl

/-- The text of a collapsed expansion is read again, as the pieces of each level, when no token
below the root is dangling.  If one is, the text is refused, for an empty alternative. -/
theorem parse_collapse_expand {policy : Policy} {path : String} {t : Tree}
    (h : policy.expand path = .ok t) (validate : Bool) : ∃ root label below collapsed,
      parse policy.strict path = .ok (root :: below) ∧ root.tokens = [label] ∧
      t.collapse validate = .ok collapsed ∧
      ((∀ level ∈ below, ∀ token ∈ level.tokens, ¬ Dangling token) →
        parse policy.strict collapsed = .ok (levelsOf ([label] :: below.map Level.pieces))) ∧
      ((∃ level ∈ below, ∃ token ∈ level.tokens, Dangling token) → ∃ depth problem,
        parse policy.strict collapsed = .error (.malformedPath collapsed problem) ∧
        problem ∈ [.trailingSeparator, .emptySegment depth, .emptyToken depth]) := by
  obtain ⟨root, label, below, collapsed, hparse, hroot, hcollapse, hwrites⟩ :=
    writesPieces_collapse_expand h validate
  have hempty : ∀ level ∈ below,
      ("" ∈ level.pieces ↔ ∃ token ∈ level.tokens, Dangling token) := by
    intro level hlevel
    have hlevel := List.mem_cons_of_mem root hlevel
    exact Level.empty_mem_pieces_iff fun token htoken =>
      (PathStructure.isToken_of_parse hparse level hlevel token htoken).ne_empty
  refine ⟨root, label, below, collapsed, hparse, hroot, hcollapse, ?_, ?_⟩
  · intro hnone
    rw [hwrites.parse_eq_ok_iff, List.forall_mem_map]
    refine ⟨?_, rfl⟩
    intro level hlevel hmem
    obtain ⟨token, htoken, hdangling⟩ := (hempty level hlevel).1 hmem
    exact hnone level hlevel token htoken hdangling
  · rintro ⟨level, hlevel, hdangling⟩
    have hmem := (hempty level hlevel).2 hdangling
    cases hread : parse policy.strict collapsed with
    | ok levels =>
      -- what is read has no empty alternative
      have hnone := (hwrites.parse_eq_ok_iff.1 hread).1
      exact absurd hmem (hnone _ (List.mem_map_of_mem hlevel))
    | error fault =>
      obtain ⟨depth, problem, rfl, hproblem⟩ := hwrites.parse_eq_error hread
      exact ⟨depth, problem, rfl, hproblem⟩

/-- A dash inside a token, and a dash at the end of the last one. -/
theorem parse_collapse_expand_home :
    ((product "home" [["a-b"]]).collapse true = .ok "/home/a|b" ∧
      parse false "/home/a|b" = .ok [⟨0, ["home"]⟩, ⟨1, ["a", "b"]⟩]) ∧
    (product "home" [["b-"]]).collapse true = .ok "/home/b|" ∧
      ∃ depth problem, parse false "/home/b|" = .error (.malformedPath "/home/b|" problem) ∧
        problem ∈ [.trailingSeparator, .emptySegment depth, .emptyToken depth] := by
  have hinside : Policy.expand {} "/home/a-b" = .ok (product "home" [["a-b"]]) := by cbv
  have hend : Policy.expand {} "/home/b-" = .ok (product "home" [["b-"]]) := by cbv
  have hread : parse false "/home/a-b" = .ok [⟨0, ["home"]⟩, ⟨1, ["a-b"]⟩] := by cbv
  have hread' : parse false "/home/b-" = .ok [⟨0, ["home"]⟩, ⟨1, ["b-"]⟩] := by cbv
  have hcollapse : (product "home" [["a-b"]]).collapse true = .ok "/home/a|b" :=
    collapse_product "home" (by decide) true
  have hcollapse' : (product "home" [["b-"]]).collapse true = .ok "/home/b|" :=
    collapse_product "home" (by decide) true
  constructor
  · obtain ⟨root, label, below, collapsed, hparse, hroot, hwritten, hplain, -⟩ :=
      parse_collapse_expand hinside true
    obtain ⟨rfl, rfl⟩ := List.cons.inj (Except.ok.inj (hread.symm.trans hparse))
    obtain ⟨rfl, -⟩ := List.cons.inj hroot
    obtain rfl := Except.ok.inj (hcollapse.symm.trans hwritten)
    refine ⟨hcollapse, (hplain (by decide)).trans ?_⟩
    cbv
  · obtain ⟨root, label, below, collapsed, hparse, -, hwritten, -, hdangling⟩ :=
      parse_collapse_expand hend true
    obtain ⟨rfl, rfl⟩ := List.cons.inj (Except.ok.inj (hread'.symm.trans hparse))
    obtain rfl := Except.ok.inj (hcollapse'.symm.trans hwritten)
    exact ⟨hcollapse', hdangling (by decide)⟩

/-- An expansion that collapses into a text which is refused. -/
theorem collapse_expand_dangling : ∃ t : Tree,
    Policy.expand {} "/home/a-" = .ok t ∧ t.collapse false = .ok "/home/a|" ∧
    parse false "/home/a|" = .error (.malformedPath "/home/a|" (.emptyToken 1)) :=
  ⟨product "home" [["a-"]], by cbv, collapse_product "home" (by decide) false, by cbv⟩

end Tree

end ComboTree
