import Mathlib.Data.Finset.Card
import Mathlib.Data.List.Forall2
import Mathlib.Data.String.Basic

/-!
# List lemmas

Facts about core's list functions, and about `Except`, that do not mention trees or tokens.

* `eq_of_mem_of_length_le_one`  two entries where there is room for one
* `nodup_eraseDups`, `length_eraseDups`  `eraseDups` keeps one entry per distinct value
* `eraseDups_eq_self_iff`, `eraseDups_append_of_subset`  what `eraseDups` leaves alone and what it drops
* `Pairwise.eraseDups_map`  first occurrences are kept in their order
* `pairwise_eraseReps`  on an ascending list `eraseReps` leaves a strictly ascending one
* `flatMap_range'_blocks`  blocks of consecutive numbers side by side are one block
* `flatMap_dropLast_append`  all entries but the last, and then that one
* `findIdx?_eq_some_iff_append`  the first entry that passes a test, with what is on either side
* `Pairwise.find?_eq_some_iff`  where a list follows an order, it is the first in that order
* `getD_max?_eq_foldr`  the greatest of some numbers, by a fold
* `Except.bind_eq_ok_iff`, `mapM_eq_ok_iff`  steps that can fail succeed together when each does
* `Except.map_eq_ok_iff`, `Except.mapError_eq_ok_iff`  what is done to a result or to an error
* `mapM_eq_error_iff`  they fail with the first failure
-/

/-- Two steps in a row succeed when both do. -/
theorem Except.bind_eq_ok_iff {ε α β : Type} {x : Except ε α} {f : α → Except ε β} {b : β} :
    x >>= f = .ok b ↔ ∃ a, x = .ok a ∧ f a = .ok b := by
  cases x with
  | error e => simp [bind, Except.bind]
  | ok a => simp [bind, Except.bind]

/-- Two steps in a row fail when the first does, or the second after it. -/
theorem Except.bind_eq_error_iff {ε α β : Type} {x : Except ε α} {f : α → Except ε β} {e : ε} :
    x >>= f = .error e ↔ x = .error e ∨ ∃ a, x = .ok a ∧ f a = .error e := by
  cases x with
  | error e => simp [bind, Except.bind]
  | ok a => simp [bind, Except.bind]

/-- Another error changes nothing about success. -/
theorem Except.mapError_eq_ok_iff {ε ε' α : Type} {f : ε → ε'} {x : Except ε α} {a : α} :
    x.mapError f = .ok a ↔ x = .ok a := by
  cases x <;> simp [Except.mapError]

/-- What is done to the result changes nothing about success. -/
theorem Except.map_eq_ok_iff {ε α β : Type} {f : α → β} {x : Except ε α} {b : β} :
    x.map f = .ok b ↔ ∃ a, x = .ok a ∧ f a = b := by
  cases x <;> simp [Except.map]

/-- What is done to the result changes nothing about failure. -/
theorem Except.map_eq_error_iff {ε α β : Type} {f : α → β} {x : Except ε α} {e : ε} :
    x.map f = .error e ↔ x = .error e := by
  cases x <;> simp [Except.map]

namespace List

variable {α : Type}

/-! ## At most one entry -/

/-- Two entries of a list with at most one are the same. -/
theorem eq_of_mem_of_length_le_one {xs : List α} {x y : α} (h : xs.length ≤ 1) (hx : x ∈ xs)
    (hy : y ∈ xs) : x = y := by
  match xs with
  | [] => exact absurd hx not_mem_nil
  | [_] => rw [mem_singleton.1 hx, mem_singleton.1 hy]
  | _ :: _ :: _ =>
    simp only [length_cons] at h
    omega

/-! ## First occurrences -/

/-- No entry is left twice. -/
theorem nodup_eraseDups [BEq α] [LawfulBEq α] : ∀ l : List α, l.eraseDups.Nodup
  | [] => by simp
  | a :: l => by
    rw [eraseDups_cons, nodup_cons]
    -- what is left after `a` has lost every copy of `a`
    refine ⟨?_, nodup_eraseDups (l.filter fun b => !b == a)⟩
    simp [mem_eraseDups]
termination_by l => l.length
decreasing_by
  have := length_filter_le (fun b => !b == a) l
  simp only [length_cons]
  omega

/-- `eraseDups` keeps as many entries as there are distinct values. -/
theorem length_eraseDups [DecidableEq α] (l : List α) :
    l.eraseDups.length = l.toFinset.card := by
  rw [← toFinset_card_of_nodup (nodup_eraseDups l)]
  congr 1
  ext a
  simp [mem_eraseDups]

/-- A list without repetitions is left as it is. -/
theorem eraseDups_eq_self [BEq α] [LawfulBEq α] {l : List α} (h : l.Nodup) :
    l.eraseDups = l := by
  induction l with
  | nil => simp
  | cons a l ih =>
    obtain ⟨ha, hl⟩ := nodup_cons.1 h
    have hfilter : (l.filter fun b => !b == a) = l := by
      apply filter_eq_self.2
      intro b hb
      have hne : b ≠ a := fun e => ha (e ▸ hb)
      simpa using hne
    rw [eraseDups_cons, hfilter, ih hl]

/-- Only a list without repetitions is left as it is. -/
theorem eraseDups_eq_self_iff [BEq α] [LawfulBEq α] {l : List α} : l.eraseDups = l ↔ l.Nodup := by
  constructor
  · intro h
    rw [← h]
    exact nodup_eraseDups l
  · exact eraseDups_eq_self

/-- What has occurred before is dropped. -/
theorem eraseDups_append_of_subset [BEq α] [LawfulBEq α] {as bs : List α} (h : bs ⊆ as) :
    (as ++ bs).eraseDups = as.eraseDups := by
  have hnone : bs.removeAll as = [] := by
    apply filter_eq_nil_iff.2
    intro b hb
    simpa using h hb
  rw [eraseDups_append, hnone, eraseDups_nil, append_nil]

/-- Saying everything again brings nothing new. -/
theorem eraseDups_flatMap_const {β : Type} [BEq α] [LawfulBEq α] {bs : List β} (h : bs ≠ [])
    (l : List α) : (bs.flatMap fun _ => l).eraseDups = l.eraseDups := by
  cases bs with
  | nil => exact absurd rfl h
  | cons b bs =>
    -- everything after the first time has occurred before
    rw [flatMap_cons]
    apply eraseDups_append_of_subset
    intro a ha
    obtain ⟨_, -, ha⟩ := mem_flatMap.1 ha
    exact ha

/-- Of two values the one that occurs first is kept first: along a list that follows an order, it
has an occurrence that comes before all those of the other. -/
theorem Pairwise.eraseDups_map {β : Type} [BEq β] [LawfulBEq β] {r : α → α → Prop} (f : α → β) :
    ∀ {xs : List α}, xs.Pairwise r → (xs.map f).eraseDups.Pairwise fun b c =>
      ∃ x ∈ xs, f x = b ∧ ∀ y ∈ xs, f y = c → r x y
  | [], _ => by simp
  | x :: xs, h => by
    obtain ⟨hx, hxs⟩ := pairwise_cons.1 h
    -- what is left after `f x` are the values of the entries with another value
    have hrest := Pairwise.eraseDups_map f (hxs.filter fun y => !f y == f x)
    have hfilter : (xs.map f).filter (fun b => !b == f x) =
        (xs.filter fun y => !f y == f x).map f := filter_map ..
    rw [map_cons, eraseDups_cons, hfilter, pairwise_cons]
    have hne : ∀ c ∈ ((xs.filter fun y => !f y == f x).map f).eraseDups, f x ≠ c := by
      intro c hc
      obtain ⟨y, hy, rfl⟩ := mem_map.1 (mem_eraseDups.1 hc)
      exact (bne_iff_ne.1 (mem_filter.1 hy).2).symm
    constructor
    · intro c hc
      refine ⟨x, mem_cons_self, rfl, ?_⟩
      intro y hy hyc
      rcases mem_cons.1 hy with rfl | hy
      · exact absurd hyc (hne c hc)
      · exact hx y hy
    · refine hrest.imp_of_mem ?_
      intro b c _ hc ⟨y, hy, hyb, hbefore⟩
      refine ⟨y, mem_cons_of_mem x (mem_filter.1 hy).1, hyb, ?_⟩
      intro z hz hzc
      rcases mem_cons.1 hz with rfl | hz
      · exact absurd hzc (hne c hc)
      · have hkept : f z ≠ f x := hzc ▸ (hne c hc).symm
        exact hbefore z (mem_filter.2 ⟨hz, bne_iff_ne.2 hkept⟩) hzc
termination_by xs => xs.length
decreasing_by
  have := length_filter_le (fun y => !f y == f x) xs
  simp only [length_cons]
  omega

/-! ## Runs -/

private theorem eraseRepsBy_loop_eq (r : α → α → Bool) (a : α) (l acc : List α) :
    eraseRepsBy.loop r a l acc = acc.reverse ++ eraseRepsBy r (a :: l) := by
  -- a new run pushes the last value, so the accumulator changes along the list
  induction l generalizing a acc with
  | nil => simp [eraseRepsBy, eraseRepsBy.loop]
  | cons b l ih =>
    simp only [eraseRepsBy, eraseRepsBy.loop]
    split
    · exact ih a acc
    · rw [ih b (a :: acc), ih b [a]]
      simp

/-- Of two equal neighbours the first is kept. -/
theorem eraseReps_cons_cons [BEq α] [LawfulBEq α] [DecidableEq α] (a b : α) (l : List α) :
    (a :: b :: l).eraseReps =
      if a = b then (a :: l).eraseReps else a :: (b :: l).eraseReps := by
  by_cases h : a = b
  · simp [eraseReps, eraseRepsBy, eraseRepsBy.loop, h]
  · have hb : (a == b) = false := by simpa using h
    simp only [eraseReps, eraseRepsBy, eraseRepsBy.loop, hb, if_neg h]
    rw [eraseRepsBy_loop_eq]
    rfl

/-- One entry is kept. -/
@[simp] theorem eraseReps_singleton [BEq α] (a : α) : [a].eraseReps = [a] := rfl

/-- `eraseReps` keeps every value. -/
theorem mem_eraseReps [BEq α] [LawfulBEq α] [DecidableEq α] {x : α} {l : List α} :
    x ∈ l.eraseReps ↔ x ∈ l := by
  cases l with
  | nil => simp [eraseReps, eraseRepsBy]
  | cons a l =>
    induction l generalizing a with
    | nil => simp
    | cons b l ih =>
      rw [eraseReps_cons_cons]
      -- of two equal neighbours one is dropped, and the other one has its value
      split
      · rename_i h
        simp [ih, h]
      · simp [ih b]

/-- Equal entries of an ascending list are neighbours, so none is left twice. -/
theorem pairwise_eraseReps {l : List String} (h : l.Pairwise (· ≤ ·)) :
    l.eraseReps.Pairwise (· < ·) := by
  cases l with
  | nil => simp [eraseReps, eraseRepsBy]
  | cons a l =>
    -- the first entry is kept apart, since it may be dropped for an equal one behind it
    induction l generalizing a with
    | nil => simp
    | cons b l ih =>
      obtain ⟨ha, hbl⟩ := pairwise_cons.1 h
      rw [eraseReps_cons_cons]
      split
      · exact ih a (pairwise_cons.2 ⟨fun x hx => ha x (mem_cons_of_mem b hx), hbl.tail⟩)
      · rename_i hne
        refine pairwise_cons.2 ⟨fun x hx => ?_, ih b hbl⟩
        have hab : a < b := lt_of_le_of_ne (ha b mem_cons_self) hne
        -- whatever is left from `b` on is `b` or, the list ascending, not below it
        rcases mem_cons.1 (mem_eraseReps.1 hx) with rfl | hx
        · exact hab
        · exact lt_of_lt_of_le hab (rel_of_pairwise_cons hbl hx)

/-! ## Consecutive numbers -/

/-- Blocks of `w` consecutive numbers, one for each number of a block, are one block together. -/
theorem flatMap_range'_blocks (start w s m : Nat) :
    ((range' s m).flatMap fun n => range' (start + (n - s) * w) w) = range' start (m * w) := by
  induction m with
  | zero => simp
  | succ m ih =>
    rw [range'_1_concat, flatMap_append, ih, flatMap_singleton, Nat.add_sub_cancel_left,
      range'_append_1, Nat.succ_mul]

/-- Every entry has a position. -/
theorem exists_mem_zipIdx_of_mem {xs : List α} {x : α} (h : x ∈ xs) (k : Nat) :
    ∃ i, (x, i) ∈ xs.zipIdx k := by
  rw [← zipIdx_map_fst k xs] at h
  obtain ⟨⟨x, i⟩, hmem, rfl⟩ := mem_map.1 h
  exact ⟨i, hmem⟩

/-! ## The last entry -/

/-- What all entries but the last give, and then what that gives, is what all of them give. -/
theorem flatMap_dropLast_append {β : Type} (f : α → List β) (xs : List α) :
    xs.dropLast.flatMap f ++ xs.getLast?.toList.flatMap f = xs.flatMap f := by
  rcases eq_nil_or_concat xs with rfl | ⟨init, last, rfl⟩
  · rfl
  · simp

/-! ## The first entry that passes -/

/-- The entries before the first one that passes, that one, and the rest. -/
theorem findIdx?_eq_some_iff_append {p : α → Bool} {xs : List α} {i : Nat} :
    xs.findIdx? p = some i ↔ ∃ before x after, xs = before ++ x :: after ∧
      (∀ y ∈ before, p y = false) ∧ p x = true ∧ before.length = i := by
  -- the place of an entry is the number of entries before it
  induction xs generalizing i with
  | nil => simp
  | cons a xs ih =>
    rw [findIdx?_cons]
    cases ha : p a with
    | true =>
      simp only [if_true, Option.some.injEq]
      constructor
      · rintro rfl
        exact ⟨[], a, xs, rfl, by simp, ha, rfl⟩
      · rintro ⟨before, x, after, hxs, hbefore, -, rfl⟩
        -- an entry before the first one that passes would be `a`, which passes
        cases before with
        | nil => rfl
        | cons b before =>
          obtain ⟨rfl, -⟩ := cons.inj hxs
          rw [hbefore a mem_cons_self] at ha
          exact nomatch ha
    | false =>
      simp only [Bool.false_eq_true, if_false, Option.map_eq_some_iff]
      constructor
      · rintro ⟨j, hj, rfl⟩
        obtain ⟨before, x, after, rfl, hbefore, hx, rfl⟩ := ih.1 hj
        exact ⟨a :: before, x, after, rfl, by simpa [ha] using hbefore, hx, rfl⟩
      · rintro ⟨before, x, after, hxs, hbefore, hx, rfl⟩
        cases before with
        | nil =>
          obtain ⟨rfl, -⟩ := cons.inj hxs
          rw [hx] at ha
          exact nomatch ha
        | cons b before =>
          obtain ⟨rfl, rfl⟩ := cons.inj hxs
          exact ⟨_, ih.2 ⟨before, x, after, rfl, (forall_mem_cons.1 hbefore).2, hx, rfl⟩, rfl⟩

/-- Along a list that follows an order, the first entry that passes comes before all others that
do. -/
theorem Pairwise.find?_eq_some_iff {r : α → α → Prop} {xs : List α} (h : xs.Pairwise r)
    (asymm : ∀ x y, r x y → ¬ r y x) {p : α → Bool} {x : α} :
    xs.find? p = some x ↔ x ∈ xs ∧ p x = true ∧ ∀ y ∈ xs, p y = true → y ≠ x → r x y := by
  rw [find?_eq_some_iff_append]
  constructor
  · rintro ⟨hx, before, after, rfl, hbefore⟩
    refine ⟨by simp, hx, ?_⟩
    intro y hy hpy hne
    have hafter : y ∈ after := by
      rcases mem_append.1 hy with hy | hy
      · have := hbefore y hy
        simp [hpy] at this
      · exact (mem_cons.1 hy).resolve_left hne
    exact rel_of_pairwise_cons (pairwise_append.1 h).2.1 hafter
  · rintro ⟨hmem, hx, hfirst⟩
    obtain ⟨before, after, rfl⟩ := append_of_mem hmem
    refine ⟨hx, before, after, rfl, ?_⟩
    intro y hy
    have hyx : r y x := (pairwise_append.1 h).2.2 y hy x mem_cons_self
    -- an entry that passes before `x` would come after it in the order as well
    by_contra hpy
    have hne : y ≠ x := fun e => asymm y x hyx (e ▸ hyx)
    exact asymm y x hyx (hfirst y (mem_append_left _ hy) (by simpa using hpy) hne)

/-! ## The greatest entry -/

/-- The greatest entry, and zero if there is none. -/
theorem getD_max?_eq_foldr (xs : List Nat) : xs.max?.getD 0 = xs.foldr max 0 := by
  induction xs with
  | nil => rfl
  | cons x xs ih =>
    rw [max?_cons, foldr_cons, ← ih]
    cases xs.max? <;> simp

/-! ## Lexicographic order -/

/-- Of two lists of one length the smaller one stays the smaller, whatever is written after them. -/
theorem append_lt_append_of_length_eq {as bs : List Nat} (hlength : as.length = bs.length)
    (h : as < bs) (cs ds : List Nat) : as ++ cs < bs ++ ds := by
  induction as generalizing bs with
  | nil =>
    rw [length_nil, eq_comm, length_eq_zero_iff] at hlength
    subst hlength
    exact absurd h (List.lt_irrefl [])
  | cons a as ih =>
    cases bs with
    | nil => exact nomatch hlength
    | cons b bs =>
      rw [cons_lt_cons_iff] at h
      rw [cons_append, cons_append, cons_lt_cons_iff]
      -- the first difference decides, and there is one before the shorter list ends
      rcases h with h | ⟨rfl, h⟩
      · exact .inl h
      · exact .inr ⟨rfl, ih (by simpa using hlength) h⟩

/-! ## Steps that can fail -/

/-- All steps succeed, and their results stand in the order of the list. -/
theorem mapM_eq_ok_iff {ε β : Type} {f : α → Except ε β} {xs : List α} {ys : List β} :
    xs.mapM f = .ok ys ↔ Forall₂ (fun x y => f x = .ok y) xs ys := by
  induction xs generalizing ys with
  | nil =>
    rw [mapM_nil, forall₂_nil_left_iff]
    exact ⟨fun h => (Except.ok.inj h).symm, fun h => h ▸ rfl⟩
  | cons x xs ih =>
    rw [mapM_cons, forall₂_cons_left_iff, Except.bind_eq_ok_iff]
    constructor
    · rintro ⟨y, hx, h⟩
      obtain ⟨ys', hxs, h⟩ := Except.bind_eq_ok_iff.1 h
      exact ⟨y, ys', hx, ih.1 hxs, (Except.ok.inj h).symm⟩
    · rintro ⟨y, ys', hx, hxs, rfl⟩
      exact ⟨y, hx, Except.bind_eq_ok_iff.2 ⟨ys', ih.2 hxs, rfl⟩⟩

/-- The failure of a list of steps is that of the first one that fails. -/
theorem mapM_eq_error_iff {ε β : Type} {f : α → Except ε β} {xs : List α} {e : ε} :
    xs.mapM f = .error e ↔ ∃ before x after, xs = before ++ x :: after ∧
      (∀ y ∈ before, ∃ b, f y = .ok b) ∧ f x = .error e := by
  induction xs with
  | nil => simp [pure, Except.pure]
  | cons a xs ih =>
    rw [mapM_cons]
    -- either the first step fails, or it succeeds and the failure comes from the others
    cases ha : f a with
    | error e' =>
      simp only [bind, Except.bind, Except.error.injEq]
      constructor
      · rintro rfl
        exact ⟨[], a, xs, rfl, by simp, ha⟩
      · rintro ⟨before, x, after, hxs, hbefore, hx⟩
        cases before with
        | nil =>
          obtain ⟨rfl, -⟩ := cons.inj hxs
          exact Except.error.inj (ha.symm.trans hx)
        | cons b before =>
          obtain ⟨rfl, -⟩ := cons.inj hxs
          obtain ⟨b, hb⟩ := hbefore a mem_cons_self
          exact nomatch ha.symm.trans hb
    | ok b =>
      have hrest : (xs.mapM f >>= fun bs => pure (b :: bs)) = Except.error e ↔
          xs.mapM f = .error e := by
        cases xs.mapM f <;> simp [bind, Except.bind, pure, Except.pure]
      refine hrest.trans (ih.trans ?_)
      constructor
      · rintro ⟨before, x, after, rfl, hbefore, hx⟩
        exact ⟨a :: before, x, after, rfl, forall_mem_cons.2 ⟨⟨b, ha⟩, hbefore⟩, hx⟩
      · rintro ⟨before, x, after, hxs, hbefore, hx⟩
        cases before with
        | nil =>
          obtain ⟨rfl, -⟩ := cons.inj hxs
          exact nomatch ha.symm.trans hx
        | cons b' before =>
          obtain ⟨rfl, rfl⟩ := cons.inj hxs
          exact ⟨before, x, after, rfl, (forall_mem_cons.1 hbefore).2, hx⟩

/-- Every result comes from an entry of the list. -/
theorem exists_of_mem_forall₂ {β : Type} {r : α → β → Prop} {xs : List α} {ys : List β}
    (h : Forall₂ r xs ys) {y : β} (hy : y ∈ ys) : ∃ x ∈ xs, r x y := by
  induction h with
  | nil => exact absurd hy not_mem_nil
  | @cons x y' xs ys hr _ ih =>
    rcases mem_cons.1 hy with rfl | hy
    · exact ⟨x, mem_cons_self, hr⟩
    · obtain ⟨x', hx', hr'⟩ := ih hy
      exact ⟨x', mem_cons_of_mem x hx', hr'⟩

end List
