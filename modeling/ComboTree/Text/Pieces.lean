/-!
# Pieces of a text between separators

`pieces sep s` cuts the text `s` at every occurrence of the character `sep`; `joined sep ps`
writes the pieces `ps` with `sep` between neighbours.  A text with `n` separators has `n + 1`
pieces, some of them possibly empty, so the empty text has one empty piece.

* `joined_pieces`  `joined sep (pieces sep s) = s`
* `pieces_joined`  `pieces sep (joined sep ps) = ps`, for at least one piece, none holding `sep`
* `not_mem_of_mem_pieces`  no piece holds the separator
-/

namespace ComboTree.Text

/-- The texts between the occurrences of `sep` in `s`, from left to right. -/
def pieces (sep : Char) (s : String) : List String :=
  (s.toList.splitOn sep).map String.ofList

/-- The texts `ps` one after the other, with `sep` between neighbours. -/
def joined (sep : Char) (ps : List String) : String :=
  (String.singleton sep).intercalate ps

/-- Even the empty text has a piece. -/
theorem pieces_ne_nil (sep : Char) (s : String) : pieces sep s ≠ [] := by
  simp [pieces, List.splitOn_ne_nil]

/-- `joined`, character by character. -/
theorem toList_joined (sep : Char) (ps : List String) :
    (joined sep ps).toList = [sep].intercalate (ps.map String.toList) := by
  simp [joined, String.toList_intercalate]

/-- Cutting a text and joining its pieces gives the text back. -/
theorem joined_pieces (sep : Char) (s : String) : joined sep (pieces sep s) = s := by
  apply String.ext
  rw [toList_joined, pieces, List.map_map]
  have h : String.toList ∘ String.ofList = id := by funext l; simp
  rw [h, List.map_id, List.intercalate_splitOn]

/-- Pieces without the separator are read back from what is joined of them. -/
theorem pieces_joined (sep : Char) {ps : List String} (hne : ps ≠ [])
    (hsep : ∀ p ∈ ps, sep ∉ p.toList) : pieces sep (joined sep ps) = ps := by
  have hcs : (ps.map String.toList) ≠ [] := by simpa using hne
  have hmem : ∀ l ∈ ps.map String.toList, sep ∉ l := by simpa using hsep
  rw [pieces, toList_joined, List.splitOn_intercalate sep hmem hcs, List.map_map]
  have h : String.ofList ∘ String.toList = id := by funext l; simp
  rw [h, List.map_id]

private theorem not_mem_of_mem_splitOn {sep : Char} {l p : List Char}
    (h : p ∈ l.splitOn sep) : sep ∉ p := by
  induction l generalizing p with
  | nil => simp_all [List.splitOn_nil]
  | cons c l ih =>
    rw [List.splitOn_eq_splitOnP, List.splitOnP_cons_eq_if_modifyHead] at h
    -- a separator starts a new piece, any other character lengthens the first one
    by_cases hc : c = sep
    · simp only [hc, beq_self_eq_true, if_true, List.mem_cons] at h
      rcases h with rfl | h
      · simp
      · exact ih (by rw [List.splitOn_eq_splitOnP]; exact h)
    · rw [if_neg (by simpa using hc)] at h
      -- name the first piece of the rest, the one that `c` is put in front of
      obtain ⟨q, qs, hq⟩ := List.exists_cons_of_ne_nil (List.splitOnP_ne_nil (· == sep) l)
      have ih' : ∀ r ∈ q :: qs, sep ∉ r := fun r hr => ih (by
        rw [List.splitOn_eq_splitOnP, hq]; exact hr)
      rw [hq, List.modifyHead_cons, List.mem_cons] at h
      rcases h with rfl | h
      · simp only [List.mem_cons, not_or]
        exact ⟨fun e => hc e.symm, ih' q (List.mem_cons_self ..)⟩
      · exact ih' p (List.mem_cons_of_mem _ h)

/-- No piece holds the separator. -/
theorem not_mem_of_mem_pieces {sep : Char} {s p : String} (h : p ∈ pieces sep s) :
    sep ∉ p.toList := by
  obtain ⟨l, hl, rfl⟩ := List.mem_map.1 h
  simpa using not_mem_of_mem_splitOn hl

end ComboTree.Text
