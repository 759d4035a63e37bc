import ComboTree.Text.Pieces

/-!
# Cutting and joining texts

What `pieces` makes of a text that was joined or starts with the separator, and which characters a
joined text holds.

## Key results

- `pieces_joined_flatMap`: cutting what was joined gives the pieces of each piece
- `pieces_eq_singleton`: a text without the separator is one piece
- `pieces_of_toList_eq_cons`: a text that starts with the separator has an empty first piece
- `joined_empty_cons`: each text after a separator is a joined text with an empty first piece
- `empty_mem_pieces_iff`: where an empty piece comes from
- `not_mem_toList_joined`, `joined_ne_empty`: what the pieces keep out of the joined text
-/

namespace ComboTree.Text

/-! ## Cutting -/

/-- A text without the separator is one piece. -/
theorem pieces_eq_singleton {sep : Char} {s : String} (h : sep ∉ s.toList) :
    pieces sep s = [s] := by
  -- a text alone is joined to itself
  have hjoined : joined sep [s] = s := by
    apply String.ext
    simp [toList_joined]
  have hpieces := pieces_joined sep (List.cons_ne_nil s []) (by simpa using h)
  rwa [hjoined] at hpieces

/-- Cutting what was joined gives the pieces of each piece in turn. -/
theorem pieces_joined_flatMap (sep : Char) {ps : List String} (h : ps ≠ []) :
    pieces sep (joined sep ps) = ps.flatMap (pieces sep) := by
  induction ps with
  | nil => exact absurd rfl h
  | cons p ps ih =>
    cases ps with
    | nil => simp [pieces, toList_joined]
    | cons q qs =>
      -- the separator after `p` ends the last piece of `p`
      have hcons : (joined sep (p :: q :: qs)).toList =
          p.toList ++ sep :: (joined sep (q :: qs)).toList := by
        simp [toList_joined]
      have hrest := ih (List.cons_ne_nil q qs)
      rw [List.flatMap_cons, ← hrest, pieces, hcons, List.splitOn_append_cons_self, List.map_append]
      rfl

/-- A text that starts with the separator has an empty first piece, and a second one. -/
theorem pieces_of_toList_eq_cons {sep : Char} {s : String} {cs : List Char}
    (h : s.toList = sep :: cs) : pieces sep s = "" :: pieces sep (String.ofList cs) := by
  have hsplit := List.splitOn_append_cons_self (a := sep) [] cs
  rw [List.nil_append] at hsplit
  rw [pieces, pieces, h, hsplit, String.toList_ofList, List.splitOn_nil, List.map_append]
  rfl

/-- A separator anywhere in a text is where one piece ends and another one starts. -/
theorem pieces_of_toList_eq_append {sep : Char} {s : String} {xs ys : List Char}
    (h : s.toList = xs ++ sep :: ys) :
    pieces sep s = pieces sep (String.ofList xs) ++ pieces sep (String.ofList ys) := by
  rw [pieces, pieces, pieces, h, List.splitOn_append_cons_self, List.map_append,
    String.toList_ofList, String.toList_ofList]

/-- The empty text is one piece. -/
theorem pieces_empty (sep : Char) : pieces sep "" = [""] :=
  pieces_eq_singleton (by simp)

/-! ## Joining -/

/-- The separator stands after the first of several texts. -/
theorem joined_cons_cons (sep : Char) (p q : String) (ps : List String) :
    joined sep (p :: q :: ps) = p ++ String.singleton sep ++ joined sep (q :: ps) :=
  String.intercalate_cons_cons

/-- Two lists of texts are joined with one more separator between them. -/
theorem joined_append (sep : Char) {ps qs : List String} (hp : ps ≠ []) (hq : qs ≠ []) :
    joined sep (ps ++ qs) = joined sep ps ++ String.singleton sep ++ joined sep qs := by
  obtain ⟨q, qs, rfl⟩ := List.exists_cons_of_ne_nil hq
  induction ps with
  | nil => exact absurd rfl hp
  | cons p ps ih =>
    -- with one text left, the separator after it is the one between the two lists
    cases ps with
    | nil => simp [joined]
    | cons r rs =>
      have hrest := ih (List.cons_ne_nil r rs)
      rw [List.cons_append] at hrest
      rw [List.cons_append, List.cons_append, joined_cons_cons, joined_cons_cons, hrest]
      simp only [String.append_assoc]

/-- Texts with a separator before each of them. -/
theorem joined_empty_cons (sep : Char) {ps : List String} (h : ps ≠ []) :
    joined sep ("" :: ps) = String.join (ps.map (String.singleton sep ++ ·)) := by
  induction ps with
  | nil => exact absurd rfl h
  | cons p ps ih =>
    cases ps with
    | nil => simp [joined]
    | cons q qs =>
      have hrest := ih (List.cons_ne_nil q qs)
      rw [joined_cons_cons, String.empty_append] at hrest ⊢
      rw [joined_cons_cons, List.map_cons, String.join_cons, ← hrest, String.append_assoc,
        String.append_assoc]

/-- A character that is in none of the texts, and is not the separator, is not written. -/
theorem not_mem_toList_joined {c sep : Char} (hsep : c ≠ sep) {ps : List String}
    (h : ∀ p ∈ ps, c ∉ p.toList) : c ∉ (joined sep ps).toList := by
  induction ps with
  | nil => simp [joined]
  | cons p ps ih =>
    have hp := h p List.mem_cons_self
    have hps := ih fun q hq => h q (List.mem_cons_of_mem p hq)
    cases ps with
    | nil => simpa [joined] using hp
    | cons q qs =>
      rw [joined_cons_cons]
      simp [hp, hps, hsep]

/-- What is in one of the texts is written. -/
theorem mem_toList_joined {c sep : Char} {ps : List String} {p : String} (hp : p ∈ ps)
    (hc : c ∈ p.toList) : c ∈ (joined sep ps).toList := by
  induction ps with
  | nil => exact absurd hp List.not_mem_nil
  | cons q ps ih =>
    cases ps with
    | nil =>
      rw [List.mem_singleton.1 hp] at hc
      simpa [joined] using hc
    | cons r rs =>
      rw [joined_cons_cons]
      rcases List.mem_cons.1 hp with rfl | hp
      · simp [hc]
      · simp [ih hp]

/-- What a text does not hold, no piece of it holds. -/
theorem not_mem_of_mem_pieces_of_not_mem {c sep : Char} {s p : String} (h : c ∉ s.toList)
    (hp : p ∈ pieces sep s) : c ∉ p.toList := by
  intro hc
  have hjoined : c ∈ (joined sep (pieces sep s)).toList := mem_toList_joined hp hc
  rw [joined_pieces] at hjoined
  exact h hjoined

/-- Something was written as soon as one of the texts is something. -/
theorem joined_ne_empty {sep : Char} {ps : List String} {p : String} (hp : p ∈ ps) (hne : p ≠ "") :
    joined sep ps ≠ "" := by
  -- one text alone is written as it is
  cases ps with
  | nil => exact absurd hp List.not_mem_nil
  | cons q ps =>
    cases ps with
    | nil =>
      rw [List.mem_singleton.1 hp] at hne
      simpa [joined] using hne
    | cons r rs =>
      -- at the latest the separator is written
      rw [joined_cons_cons]
      simp [String.append_eq_empty_iff]

/-- An empty piece comes from a separator with nothing on one side of it, or with another one
there. -/
theorem empty_mem_pieces_iff {sep : Char} {s : String} :
    "" ∈ pieces sep s ↔ s = "" ∨ s.toList.head? = some sep ∨ s.toList.getLast? = some sep ∨
      [sep, sep] <:+: s.toList := by
  constructor
  · intro h
    obtain ⟨before, after, hpieces⟩ := List.append_of_mem h
    have hs := joined_pieces sep s
    rw [hpieces] at hs
    -- what stands next to the empty piece is a separator, or nothing at all
    by_cases hbefore : before = [] <;> by_cases hafter : after = []
    · subst hbefore hafter
      exact .inl (by simpa [joined] using hs.symm)
    · obtain ⟨q, qs, rfl⟩ := List.exists_cons_of_ne_nil hafter
      subst hbefore
      rw [List.nil_append, joined_cons_cons] at hs
      exact .inr (.inl (by simp [← hs]))
    · subst hafter
      rw [joined_append sep hbefore (by simp)] at hs
      exact .inr (.inr (.inl (by simp [← hs, joined])))
    · obtain ⟨q, qs, rfl⟩ := List.exists_cons_of_ne_nil hafter
      rw [joined_append sep hbefore (by simp), joined_cons_cons] at hs
      refine .inr (.inr (.inr ⟨(joined sep before).toList, (joined sep (q :: qs)).toList, ?_⟩))
      simp [← hs]
  · -- conversely, between such a separator and its neighbour stands an empty text
    have hnothing : "" ∈ pieces sep (String.ofList []) := by
      simp [pieces_empty]
    rintro (rfl | h | h | ⟨xs, ys, h⟩)
    · exact hnothing
    · obtain ⟨cs, h⟩ := List.head?_eq_some_iff.1 h
      rw [pieces_of_toList_eq_cons h]
      exact List.mem_cons_self
    · obtain ⟨cs, h⟩ := List.getLast?_eq_some_iff.1 h
      rw [pieces_of_toList_eq_append h]
      exact List.mem_append_right _ hnothing
    · have hsecond : s.toList = xs ++ sep :: (sep :: ys) := by
        simp [← h]
      rw [pieces_of_toList_eq_append hsecond,
        pieces_of_toList_eq_cons (String.toList_ofList (l := sep :: ys))]
      exact List.mem_append_right _ List.mem_cons_self

end ComboTree.Text
