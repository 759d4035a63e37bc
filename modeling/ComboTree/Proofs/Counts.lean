import ComboTree.Proofs.Layers
import ComboTree.Proofs.Readers

/-!
# Loaded counts can be written

A settings file holds integers of 64 bits with a sign, and no layer of settings gives a count that
is larger: a number in a file has been read as such an integer, and one in a variable is held to
their range.  For a file this is an invariant of reading it: whatever the lines before have put
into the draft of the document, no item of its outermost table is too large.

## Key results

- `Toml.fit_of_read?`: the integers in the outermost table of a document
- `VariableValue.toInteger?_le`: the integers that variables give
- `Settings.Writable.of_load`: the counts of loaded settings
-/

namespace ComboTree

namespace Toml

/-! ## What readers yield -/

namespace Reader

variable {α β σ : Type} {P : β → Prop}

/-- Whatever the reader takes off a text satisfies `P`. -/
def Yields (p : Reader β) (P : β → Prop) : Prop :=
  ∀ s b rest, p s = some (b, rest) → P b

/-- What the last of two readers always yields, both in a row yield. -/
theorem Yields.bind {p : Reader α} {f : α → Reader β} (h : ∀ a, (f a).Yields P) :
    (p >>= f).Yields P := by
  intro s b rest hread
  rw [bind_apply] at hread
  obtain ⟨⟨a, mid⟩, -, hread⟩ := Option.bind_eq_some_iff.1 hread
  exact h a mid b rest hread

/-- As `Yields.bind`, with what is known of the first value. -/
theorem Yields.bind_of {Q : α → Prop} {p : Reader α} {f : α → Reader β} (hp : p.Yields Q)
    (h : ∀ a, Q a → (f a).Yields P) : (p >>= f).Yields P := by
  intro s b rest hread
  rw [bind_apply] at hread
  obtain ⟨⟨a, mid⟩, hfirst, hread⟩ := Option.bind_eq_some_iff.1 hread
  exact h a (hp s a mid hfirst) mid b rest hread

/-- A reader that takes nothing yields its value. -/
theorem Yields.pure {b : β} (h : P b) : (Pure.pure b : Reader β).Yields P := by
  intro s b' rest hread
  rw [pure_apply] at hread
  obtain ⟨rfl, -⟩ := Prod.mk.inj (Option.some.inj hread)
  exact h

/-- A value that is changed before it is handed on. -/
theorem Yields.map {p : Reader α} {f : α → β} (h : ∀ a, P (f a)) : (f <$> p).Yields P := by
  intro s b rest hread
  rw [map_apply] at hread
  obtain ⟨⟨a, mid⟩, -, hread⟩ := Option.map_eq_some_iff.1 hread
  obtain ⟨rfl, -⟩ := Prod.mk.inj hread
  exact h a

/-- A value that may be missing. -/
theorem Yields.ofOption {x : Option β} (h : ∀ b, x = some b → P b) : (ofOption x).Yields P := by
  intro s b rest hread
  obtain ⟨b', hb', hread⟩ := Option.map_eq_some_iff.1 hread
  obtain ⟨rfl, -⟩ := Prod.mk.inj hread
  exact h b' hb'

/-- Either of two readers. -/
theorem Yields.orElse {p q : Reader β} (hp : p.Yields P) (hq : q.Yields P) :
    (p <|> q).Yields P := by
  intro s b rest hread
  -- the second reader is asked only where the first takes nothing
  cases hfirst : p s with
  | some taken =>
    rw [orElse_of_some hfirst] at hread
    exact hp s b rest (hfirst.trans hread)
  | none =>
    rw [orElse_of_none hfirst] at hread
    exact hq s b rest hread

/-- What every step preserves holds after a repetition. -/
theorem Yields.iterate {step : β → Reader β} (hstep : ∀ b, P b → (step b).Yields P) (b : β)
    (s : List Char) (hb : P b) : P (iterate step b s).1 := by
  -- the text gets shorter with every step but the last, which is why there are three cases
  fun_induction Reader.iterate step b s with
  | case1 => exact hb
  | case2 b s next rest hread hlt ih => exact ih (hstep b hb s next rest hread)
  | case3 b s next rest hread hlt => exact hstep b hb s next rest hread

/-- A repetition yields what its start satisfies and its step preserves. -/
theorem Yields.repeated {step : β → Reader β} {b : β} (hb : P b)
    (hstep : ∀ b, P b → (step b).Yields P) : (repeated step b).Yields P := by
  intro s b' rest hread
  have hlast : Reader.iterate step b s = (b', rest) := Option.some.inj hread
  have hinv := Yields.iterate hstep b s hb
  rwa [hlast] at hinv

end Reader

open Reader (Yields)

/-! ## Items -/

/-- The item is no integer that is larger than 64 bits can hold. -/
def Item.Fits : Item → Prop
  | .integer n => n ≤ Int64.maxValue.toInt
  | _ => True

/-- Every item of a table fits; what tables in it hold is of no concern. -/
def Entries.Fit (entries : Entries) : Prop :=
  ∀ entry ∈ entries, entry.2.Fits

/-- A number that is in range is not above it. -/
theorem le_of_inRange? {n m : Int} (h : inRange? n = some m) : m ≤ Int64.maxValue.toInt := by
  unfold inRange? at h
  split at h
  · rename_i hrange
    rw [← Option.some.inj h]
    exact hrange.2
  · exact nomatch h

/-- An integer in a document is one of 64 bits, in whatever base it is written. -/
theorem le_of_integer? {text : List Char} {n : Int} (h : integer? text = some n) :
    n ≤ Int64.maxValue.toInt := by
  -- every base reads digits and holds what they say to the range
  have hbase : ∀ {base : Nat} {digits : List Char}, inBase? base digits = some n →
      n ≤ Int64.maxValue.toInt := by
    intro base digits h
    obtain ⟨_, -, h⟩ := Option.bind_eq_some_iff.1 h
    exact le_of_inRange? h
  unfold integer? at h
  split at h
  · exact hbase h
  · exact hbase h
  · exact hbase h
  · obtain ⟨_, -, h⟩ := Option.bind_eq_some_iff.1 h
    exact le_of_inRange? h

/-- A bare word that is read as an item fits. -/
theorem fits_of_lexeme? {text : List Char} {item : Item} (h : Item.ofLexeme? text = some item) :
    item.Fits := by
  unfold Item.ofLexeme? at h
  cases item with
  | integer n =>
    -- truth values are tried before integers, so a truth value was not read
    have hread : boolean? text = none ∧ integer? text = some n := by
      simp only [Option.orElse_eq_orElse, Option.orElse_eq_or, Option.or_eq_some_iff,
        Option.map_eq_some_iff] at h
      simpa using h
    exact le_of_integer? hread.2
  | _ => trivial

/-- Every value fits: what can be too large is the integer of a scalar, for an array or a table is
no integer, whatever is in it. -/
theorem yields_value_fits (depth : Nat) : (value depth).Yields Item.Fits := by
  have hscalar : scalar.Yields Item.Fits := by
    unfold scalar
    refine .orElse (.map fun _ => trivial) (.bind fun text => ?_)
    split
    · exact .bind fun _ => .pure trivial
    · exact .ofOption fun _ h => fits_of_lexeme? h
  -- at depth zero only scalars are read
  cases depth with
  | zero => exact hscalar
  | succ depth =>
    unfold value
    refine .orElse ?_ (.orElse ?_ hscalar)
    · unfold array
      refine .bind fun _ => .bind fun items => ?_
      split
      · exact .bind fun _ => .bind fun _ => .bind fun _ => .pure trivial
      · exact .bind fun _ => .bind fun _ => .pure trivial
    · unfold inlineTable
      exact .bind fun _ => .bind fun _ => .bind fun _ => .bind fun _ => .bind fun _ => .pure trivial

/-! ## Documents -/

namespace Entries

variable {entries out : Entries} {name : String} {item : Item}

/-- An entry that is replaced or added fits if its item does. -/
theorem Fit.set (h : entries.Fit) (hitem : item.Fits) : Fit (entries.set name item) := by
  unfold Entries.set
  split
  · -- the name was there: its entry is changed, the others are kept
    intro entry hmem
    obtain ⟨old, hold, rfl⟩ := List.mem_map.1 hmem
    split
    · exact hitem
    · exact h old hold
  · intro entry hmem
    rcases List.mem_append.1 hmem with hold | hnew
    · exact h entry hold
    · rw [List.mem_singleton.1 hnew]
      exact hitem

/-- So does one that is added under a new name. -/
theorem Fit.insertNew? (h : entries.Fit) (hitem : item.Fits)
    (hout : entries.insertNew? name item = some out) : Fit out := by
  unfold Entries.insertNew? at hout
  split at hout
  · exact nomatch hout
  · rename_i hnew
    have hset : Fit (entries.set name item) := h.set hitem
    unfold Entries.set at hset
    rwa [if_neg hnew, Option.some.inj hout] at hset

/-- A change at a path changes the outermost table itself, or puts a table into it. -/
theorem Fit.update {enter? : TableForm → Bool} {missing form : TableForm}
    {change : TableForm → Entries → Option Entries} {path : List String} (h : entries.Fit)
    (hchange : ∀ form, change form entries = some out → Fit out)
    (hout : Entries.update enter? missing change path form entries = some out) : Fit out := by
  unfold Entries.update at hout
  split at hout
  · exact hchange form hout
  · -- whatever becomes of the tables below, the entry on the way to them is a table
    split at hout
    · obtain ⟨inner, -, hout⟩ := Option.bind_eq_some_iff.1 hout
      rw [← Option.some.inj hout]
      exact h.set trivial
    · split at hout
      · obtain ⟨inner, -, hout⟩ := Option.bind_eq_some_iff.1 hout
        rw [← Option.some.inj hout]
        exact h.set trivial
      · exact nomatch hout
    · split at hout
      · obtain ⟨last, -, hout⟩ := Option.bind_eq_some_iff.1 hout
        rw [← Option.some.inj hout]
        exact h.set trivial
      · exact nomatch hout
    · exact nomatch hout

end Entries

/-- The outermost table fits, wherever it is: it is the section that is being read before the first
header, and complete after it. -/
structure Draft.Fit (draft : Draft) : Prop where
  complete : draft.complete.Fit
  current : draft.place = .outermost → draft.current.Fit

namespace Draft

variable {draft next : Draft} {path : List String} {name : String}

/-- Closing a section puts it where it belongs, and the outermost table still fits. -/
theorem Fit.close? {entries : Entries} (h : draft.Fit) (hclose : draft.close? = some entries) :
    entries.Fit := by
  unfold Draft.close? at hclose
  split at hclose
  · rename_i hplace
    rw [← Option.some.inj hclose]
    exact h.current hplace
  · -- a table of its own is one entry, whatever it holds
    refine h.complete.update ?_ hclose
    intro form hout
    rw [← Option.some.inj hout]
    exact h.complete.set trivial
  · refine h.complete.update ?_ hclose
    intro form hout
    dsimp only at hout
    split at hout
    · rw [← Option.some.inj hout]
      exact h.complete.set trivial
    · rw [← Option.some.inj hout]
      exact h.complete.set trivial
    · exact nomatch hout

/-- A header of a table closes the section before it and opens one that is not the outermost. -/
theorem Fit.openTable? (h : draft.Fit) (hnext : draft.openTable? path name = some next) :
    next.Fit := by
  obtain ⟨complete, hclose, hnext⟩ := Option.bind_eq_some_iff.1 hnext
  obtain ⟨current, -, hnext⟩ := Option.bind_eq_some_iff.1 hnext
  rw [← Option.some.inj hnext]
  exact ⟨h.close? hclose, fun hplace => nomatch hplace⟩

/-- So does a header of an element. -/
theorem Fit.openElement? (h : draft.Fit) (hnext : draft.openElement? path name = some next) :
    next.Fit := by
  obtain ⟨complete, hclose, hnext⟩ := Option.bind_eq_some_iff.1 hnext
  obtain ⟨entries, -, hnext⟩ := Option.bind_eq_some_iff.1 hnext
  rw [← Option.some.inj hnext]
  exact ⟨h.close? hclose, fun hplace => nomatch hplace⟩

/-- A line with a key adds a fitting item to the section that is being read. -/
theorem Fit.insertKey? {item : Item} (h : draft.Fit) (hitem : item.Fits)
    (hnext : draft.insertKey? path name item = some next) : next.Fit := by
  obtain ⟨current, hinsert, hnext⟩ := Option.bind_eq_some_iff.1 hnext
  rw [← Option.some.inj hnext]
  -- the section stays the same one, so it is outermost after the insertion if it was before
  refine ⟨h.complete, fun hplace => ?_⟩
  refine (h.current hplace).update ?_ hinsert
  intro form hout
  split at hout
  · exact (h.current hplace).insertNew? hitem hout
  · exact nomatch hout

/-- One line keeps the outermost table fitting. -/
theorem Fit.line (h : draft.Fit) : (line draft).Yields Fit := by
  -- the four kinds of line, each a chain of readers whose last one changes the draft
  have hkeyValue : (keyValueLine draft).Yields Fit := by
    unfold keyValueLine
    refine .bind fun _ => .bind fun _ => .bind fun _ => ?_
    refine .bind_of (yields_value_fits _) fun item hitem => .bind fun _ => ?_
    exact .ofOption fun _ hnext => h.insertKey? hitem hnext
  have htable : (tableLine draft).Yields Fit := by
    unfold tableLine
    refine .bind fun _ => .bind fun _ => .bind fun _ => .bind fun _ => ?_
    exact .ofOption fun _ hnext => h.openTable? hnext
  have helement : (elementLine draft).Yields Fit := by
    unfold elementLine
    refine .bind fun _ => .bind fun _ => .bind fun _ => .bind fun _ => ?_
    exact .ofOption fun _ hnext => h.openElement? hnext
  have hempty : (emptyLine draft).Yields Fit := .bind fun _ => .pure h
  exact .bind_of (.orElse hempty (.orElse helement (.orElse htable hkeyValue))) fun _ hnext =>
    .bind fun _ => .pure hnext

end Draft

/-- No integer in the outermost table of a document is too large. -/
theorem fit_of_read? {text : String} {entries : Entries} (h : read? text = some entries) :
    entries.Fit := by
  have hdocument : document.Yields Entries.Fit := by
    -- before the first line nothing has been read
    have hnone : ({} : Draft).Fit := ⟨List.forall_mem_nil _, fun _ => List.forall_mem_nil _⟩
    -- the invariant of the run over the lines
    have hlines : (Reader.repeated line {}).Yields Draft.Fit :=
      .repeated hnone fun draft hdraft => hdraft.line
    unfold document
    refine .bind fun _ => .bind fun _ => .bind_of hlines fun draft hdraft => ?_
    exact .ofOption fun _ hclose => hdraft.close? hclose
  have hwhole : (document >>= fun entries => do Reader.atEnd; return entries).Yields Entries.Fit :=
    .bind_of hdocument fun entries hentries => .bind fun _ => .pure hentries
  unfold read? Reader.readAll? at h
  obtain ⟨⟨_, rest⟩, hread, h⟩ := Option.bind_eq_some_iff.1 h
  rw [← Option.some.inj h]
  exact hwhole _ _ rest hread

end Toml

/-! ## Variables -/

/-- A number that is held to a range is not above it. -/
theorem Binary64.roundedInt_le {least greatest : Int} (h : least ≤ greatest) (hpos : 0 ≤ greatest)
    (x : Binary64) : x.roundedInt least greatest ≤ greatest := by
  unfold roundedInt
  split
  · exact max_le h (min_le_left _ _)
  · split <;> omega
  · exact hpos

/-- The integer that a variable gives is one of 64 bits. -/
theorem VariableValue.toInteger?_le {text : String} {n : Int}
    (h : (VariableValue.ofText text).toInteger? = some n) : n ≤ greatestInteger := by
  have hgreatest : greatestInteger = 9223372036854775807 := by decide
  have hleast : leastInteger = -9223372036854775808 := by decide
  have hbool : ∀ b : Bool, b.toInt ≤ greatestInteger := by decide
  -- the types are tried in this order: truth value, integer, number, text
  unfold VariableValue.ofText at h
  dsimp only at h
  split at h
  · rw [← Option.some.inj h]
    exact hbool true
  split at h
  · rw [← Option.some.inj h]
    exact hbool false
  split at h
  · rename_i m hm
    have hrange := (Option.filter_eq_some_iff.1 hm).2
    rw [← Option.some.inj h]
    simp only [decide_eq_true_eq] at hrange
    exact hrange.2
  split at h
  · rw [← Option.some.inj h]
    exact Binary64.roundedInt_le (by omega) (by omega) _
  · obtain ⟨b, -, rfl⟩ := Option.map_eq_some_iff.1 h
    exact hbool b

/-! ## Counts -/

namespace Setting

open Settings (largestNumber)
open Toml (Item)

/-- A count from a 64-bit integer can be written. -/
theorem toNat_le_largestNumber {n : Int} (h : n ≤ Int64.maxValue.toInt) :
    n.toNat ≤ largestNumber :=
  Int.toNat_le_toNat h

/-- A count in a file can be written. -/
theorem le_of_inFile? {setting : Setting Nat} (hread : setting.ofItem? = Item.count?) {host : Host}
    {file? : Option String} {n : Nat} (h : setting.inFile? host file? = some n) :
    n ≤ largestNumber := by
  unfold inFile? at h
  split at h
  · exact nomatch h
  split at h
  · obtain ⟨entries, hentries, h⟩ := Option.bind_eq_some_iff.1 h
    obtain ⟨item, hitem, h⟩ := Option.bind_eq_some_iff.1 h
    have hfits : item.Fits := by
      obtain ⟨before, after, hmem, -⟩ := List.lookup_eq_some_iff.1 hitem
      exact Toml.fit_of_read? hentries (setting.key, item) (by simp [hmem])
    rw [hread] at h
    unfold Item.count? at h
    split at h
    · split at h
      · rw [← Option.some.inj h]
        exact toNat_le_largestNumber hfits
      · exact nomatch h
    · exact nomatch h
  · exact nomatch h

/-- A count in the environment can be written. -/
theorem le_of_inEnvironment? {setting : Setting Nat} (hread : setting.ofVariable? = countOf?)
    {host : Host} {n : Nat} (h : setting.inEnvironment? host = some n) : n ≤ largestNumber := by
  obtain ⟨v, hv, h⟩ := Option.bind_eq_some_iff.1 h
  obtain ⟨entry, -, rfl⟩ := Option.map_eq_some_iff.1 hv
  rw [hread] at h
  obtain ⟨m, hm, h⟩ := Option.bind_eq_some_iff.1 h
  split at h
  · rw [← Option.some.inj h]
    exact toNat_le_largestNumber (VariableValue.toInteger?_le hm)
  · exact nomatch h

/-- A count of any layer can be written, if the default can. -/
theorem topmost_le {setting : Setting Nat} (hitem : setting.ofItem? = Item.count?)
    (hvariable : setting.ofVariable? = countOf?) (hdefault : setting.value {} ≤ largestNumber)
    (host : Host) (named : Option String) : setting.topmost host named ≤ largestNumber := by
  unfold topmost
  -- the topmost layer is the environment, then the named file, then the global one
  cases hany : (setting.inEnvironment? host).or
      ((setting.inFile? host named).or (setting.inFile? host host.globalSettingsFile?)) with
  | none => exact hdefault
  | some n =>
    rcases Option.or_eq_some_iff.1 hany with h | ⟨-, hany⟩
    · exact le_of_inEnvironment? hvariable h
    rcases Option.or_eq_some_iff.1 hany with h | ⟨-, h⟩
    · exact le_of_inFile? hitem h
    · exact le_of_inFile? hitem h

end Setting

namespace Settings

/-- Both counts can be written to a settings file. -/
structure Writable (s : Settings) : Prop where
  maxAlternatives_le : s.maxAlternatives ≤ largestNumber
  maxNodes_le : s.maxNodes ≤ largestNumber

variable {s : Settings}

/-- Loaded settings can be written, wherever their counts come from. -/
theorem Writable.of_load {host : Host} {named : Option String} (h : load host named = .ok s) :
    s.Writable := by
  have hlayered := (load_eq_ok_iff.1 h).2
  constructor
  · rw [hlayered.maxAlternatives_eq]
    exact Setting.topmost_le rfl rfl (by decide) host named
  · rw [hlayered.maxNodes_eq]
    exact Setting.topmost_le rfl rfl (by decide) host named

/-- Settings have a text exactly if both counts can be written. -/
theorem toText?_isSome_iff : s.toText?.isSome ↔ s.Writable := by
  unfold toText?
  constructor
  · intro h
    split at h
    · rename_i hle
      exact ⟨hle.1, hle.2⟩
    · exact nomatch h
  · intro h
    rw [if_pos ⟨h.maxAlternatives_le, h.maxNodes_le⟩]
    rfl

end Settings

end ComboTree
