import ComboTree.Proofs.Runs

/-!
# Written settings are read back

The written form of settings is a document of five lines `key = value`.  A `KeyLine` is such a line
with what its value is read as, and a document that is made of such lines, no key twice, holds
exactly their items.  The values are a count, a truth value or the name of a rule.

## Key results

- `integer?_toDigits`: the decimal digits of a number are read as that number
- `KeyLine.read?_document`: a document of lines holds their items
- `Settings.ofText?_of_toText?`: what is read from the written form
- `Settings.reload_written`: loaded settings are written, shown and read back
- `Settings.shown_with_heading_malformed`: the heading over what is shown is no part of a file
-/

namespace ComboTree

open Toml
open Toml.Reader (Stops)

/-! ## Decimal digits -/

section Digits

variable {n : Nat} {c : Char}

/-- Numbers are written with digits only. -/
theorem isDigit_of_mem_toDigits (h : c ∈ Nat.toDigits 10 n) : c.isDigit = true :=
  Nat.isDigit_of_mem_toDigits (by decide) (by decide) h

/-- No other character is among them. -/
theorem not_mem_toDigits (n : Nat) (h : c.isDigit = false) : c ∉ Nat.toDigits 10 n := by
  intro hmem
  rw [isDigit_of_mem_toDigits hmem] at h
  exact nomatch h

/-- Only zero is written with a zero in front. -/
theorem head?_toDigits_ne (hpos : 0 < n) : (Nat.toDigits 10 n).head? ≠ some '0' := by
  induction n using Nat.strongRecOn with
  | _ n ih =>
    rw [Nat.toDigits_eq_if (by decide)]
    split
    · rename_i hlt
      have hdigit : ∀ m < 10, 0 < m → m.digitChar ≠ '0' := by decide
      simpa using hdigit n hlt hpos
    · -- the last digit is behind those of the quotient, which are led by the same digit
      obtain ⟨c, cs, hdigits⟩ :=
        List.exists_cons_of_ne_nil (Nat.toDigits_ne_nil (n := n / 10) (b := 10))
      have hhead := ih (n / 10) (by omega) (by omega)
      rw [hdigits] at hhead ⊢
      simpa using hhead

/-- Digits without underscores between them are one group. -/
theorem ungrouped?_toDigits : ungrouped? Char.isDigit (Nat.toDigits 10 n) =
    some (Nat.toDigits 10 n) := by
  unfold ungrouped?
  rw [List.splitOn_eq_singleton Nat.underscore_not_in_toDigits]
  -- the one group is not empty and has nothing but digits
  have hall : (Nat.toDigits 10 n).all Char.isDigit = true :=
    List.all_eq_true.2 fun c hc => isDigit_of_mem_toDigits hc
  simp [hall, Nat.toDigits_ne_nil]

/-- No zero stands in front of other digits, so they are those of a whole number. -/
theorem wholeDigits?_toDigits : wholeDigits? (Nat.toDigits 10 n) = some (Nat.toDigits 10 n) := by
  have hzero : ¬ ((Nat.toDigits 10 n).head? = some '0' ∧ Nat.toDigits 10 n ≠ ['0']) := by
    intro ⟨hhead, hne⟩
    by_cases hn : n = 0
    · exact hne (by rw [hn]; rfl)
    · exact head?_toDigits_ne (by omega) hhead
  unfold wholeDigits?
  rw [ungrouped?_toDigits]
  exact if_neg hzero

/-- A number is written without a sign. -/
theorem splitSign_toDigits :
    Binary64.splitSign (Nat.toDigits 10 n) = (false, Nat.toDigits 10 n) := by
  unfold Binary64.splitSign
  split
  · rename_i hdigits
    exact absurd (by simp [hdigits]) (not_mem_toDigits n (c := '-') (by decide))
  · rename_i hdigits
    exact absurd (by simp [hdigits]) (not_mem_toDigits n (c := '+') (by decide))
  · rfl

/-- The digits of a number stand for it. -/
theorem ofDigits_toDigits : Binary64.ofDigits (Nat.toDigits 10 n) = n := by
  have h := Nat.ofDigitChars_ten_toDigits (n := n)
  rwa [Nat.ofDigitChars_eq_foldl] at h

/-- A count that can be written is in the range of 64 bits. -/
theorem inRange?_of_le (h : n ≤ Settings.largestNumber) : inRange? n = some (n : Int) := by
  have hmax : Int64.maxValue.toInt = 9223372036854775807 := by decide
  have hmin : Int64.minValue.toInt = -9223372036854775808 := by decide
  unfold Settings.largestNumber at h
  unfold inRange?
  rw [hmax] at h ⊢
  rw [hmin]
  exact if_pos ⟨by omega, by omega⟩

/-- The digits of a number are read as the number, if 64 bits can hold it. -/
theorem integer?_toDigits (h : n ≤ Settings.largestNumber) :
    integer? (Nat.toDigits 10 n) = some (n : Int) := by
  -- no digit is one of the letters that announce another base
  have hletter : ∀ letter rest, Nat.toDigits 10 n = '0' :: letter :: rest → letter.isDigit = true :=
    fun letter rest hdigits => isDigit_of_mem_toDigits (n := n) (by simp [hdigits])
  unfold integer?
  split
  · rename_i hdigits
    exact absurd (hletter _ _ hdigits) (by decide)
  · rename_i hdigits
    exact absurd (hletter _ _ hdigits) (by decide)
  · rename_i hdigits
    exact absurd (hletter _ _ hdigits) (by decide)
  · simp [splitSign_toDigits, wholeDigits?_toDigits, ofDigits_toDigits, inRange?_of_le h]

/-- Digits are no truth value. -/
theorem boolean?_toDigits : boolean? (Nat.toDigits 10 n) = none := by
  unfold boolean?
  split
  · rename_i hdigits
    exact absurd (by simp [hdigits]) (not_mem_toDigits n (c := 't') (by decide))
  · rename_i hdigits
    exact absurd (by simp [hdigits]) (not_mem_toDigits n (c := 'f') (by decide))
  · rfl

/-- Digits alone are no date either. -/
theorem isDate_toDigits : isDate (Nat.toDigits 10 n) = false := by
  unfold isDate
  split
  · rename_i hdigits
    exact absurd (by simp [hdigits]) (not_mem_toDigits n (c := '-') (by decide))
  · rfl

end Digits

/-! ## Documents of lines -/

/-- A value as it is written between a blank and the end of its line. -/
structure WrittenValue where
  shown : List Char
  item : Item
  shown_starts : ∀ rest, Stops isBlank (shown ++ '\n' :: rest)
  shown_reads : ∀ rest, value (nestingLimit - 1) (shown ++ '\n' :: rest) = some (item, '\n' :: rest)

/-- A line `key = value` of a document. -/
structure KeyLine extends WrittenValue where
  key : String
  key_ne_nil : key.toList ≠ []
  key_bare : key.toList.all isBareKeyChar = true

namespace KeyLine

/-- The characters of a line. -/
def text (line : KeyLine) : List Char :=
  line.key.toList ++ ' ' :: '=' :: ' ' :: (line.shown ++ ['\n'])

/-- A line starts with its key, so neither with a blank nor with a byte order mark. -/
theorem exists_text_append_eq (line : KeyLine) (rest : List Char) :
    ∃ c cs, line.text ++ rest = c :: cs ∧ isBareKeyChar c = true := by
  obtain ⟨c, cs, hkey⟩ := List.exists_cons_of_ne_nil line.key_ne_nil
  exact ⟨c, cs ++ ' ' :: '=' :: ' ' :: (line.shown ++ '\n' :: rest), by simp [text, hkey],
    List.all_eq_true.1 line.key_bare c (by simp [hkey])⟩

/-- What follows a line starts with a key or is nothing, so blanks stop there. -/
theorem stops_flatMap_text (lines : List KeyLine) : Stops isBlank (lines.flatMap text) := by
  cases lines with
  | nil => simp [Stops]
  | cons line lines =>
    obtain ⟨c, cs, htext, hc⟩ := line.exists_text_append_eq (lines.flatMap text)
    rw [List.flatMap_cons, htext]
    exact .cons (isBlank_of_class hc (by decide) (by decide)) cs

/-- A new key goes after the entries that are there. -/
theorem insertKey?_of_new (draft : Draft) {key : String} (item : Item)
    (h : draft.current.lookup key = none) : draft.insertKey? [] key item =
      some { draft with current := draft.current ++ [(key, item)] } := by
  have hnew : draft.current.insertNew? key item = some (draft.current ++ [(key, item)]) := by
    rw [Entries.insertNew?, h]
    rfl
  show (draft.current.insertNew? key item).bind _ = _
  rw [hnew]
  rfl

/-- The run: each line adds its item, and the last ends the text. -/
theorem iterate_line {lines : List KeyLine} (draft : Draft)
    (hnew : ∀ l ∈ lines, draft.current.lookup l.key = none)
    (hdistinct : lines.Pairwise fun a b => a.key ≠ b.key) :
    Reader.iterate line draft (lines.flatMap text) =
      ({ draft with current := draft.current ++ lines.map fun l => (l.key, l.item) }, []) := by
  -- on the lines that are left; the draft holds the items of those that have been read
  induction lines generalizing draft with
  | nil =>
    rw [List.flatMap_nil, Reader.iterate_of_none (line_nil draft), List.map_nil, List.append_nil]
  | cons l lines ih =>
    obtain ⟨hother, hdistinct⟩ := List.pairwise_cons.1 hdistinct
    have htext : (l :: lines).flatMap text =
        l.key.toList ++ ' ' :: '=' :: ' ' :: (l.shown ++ '\n' :: lines.flatMap text) := by
      simp [text]
    -- the first line is read, and its item goes behind those of the draft
    have hline := line_append l.key_ne_nil (List.all_eq_true.1 l.key_bare) (l.shown_starts _)
      (l.shown_reads _)
      (insertKey?_of_new draft l.item (by
        rw [String.ofList_toList]
        exact hnew l List.mem_cons_self))
      (stops_flatMap_text lines)
    rw [String.ofList_toList] at hline
    -- a step that takes something is not the last one
    have hshorter : (lines.flatMap text).length < (l.key.toList ++
        ' ' :: '=' :: ' ' :: (l.shown ++ '\n' :: lines.flatMap text)).length := by
      simp only [List.length_append, List.length_cons]
      omega
    rw [htext, Reader.iterate_of_some hline hshorter, ih _ _ hdistinct]
    · simp
    · -- the key that has been added is not that of a later line
      intro other hmem
      rw [List.lookup_append, hnew other (List.mem_cons_of_mem l hmem)]
      simp [Ne.symm (hother other hmem)]

/-- A document of lines holds their items, in order. -/
theorem read?_document {lines : List KeyLine} (hne : lines ≠ [])
    (hdistinct : lines.Pairwise fun a b => a.key ≠ b.key) :
    read? (String.ofList (lines.flatMap text)) = some (lines.map fun l => (l.key, l.item)) := by
  have hrun : Reader.repeated line {} (lines.flatMap text) = _ :=
    congrArg some (iterate_line {} (fun _ _ => rfl) hdistinct)
  -- a text that starts with a key has no byte order mark
  have hmark : Reader.char '\uFEFF' (lines.flatMap text) = none := by
    obtain ⟨l, lines, rfl⟩ := List.exists_cons_of_ne_nil hne
    obtain ⟨c, cs, htext, hc⟩ := l.exists_text_append_eq (lines.flatMap text)
    rw [List.flatMap_cons, htext]
    exact Reader.char_of_ne (ne_of_class hc (by decide)) cs
  -- the whole document is taken, its outermost table being the section that was read
  have hdocument : document (lines.flatMap text) =
      some (lines.map fun l => (l.key, l.item), []) := by
    unfold document
    rw [Reader.bind_of_some (Reader.optional?_of_none hmark),
      Reader.bind_of_some (blanks_of_stops (stops_flatMap_text lines)), Reader.bind_of_some hrun]
    rfl
  unfold read? Reader.readAll?
  rw [String.toList_ofList]
  show ((document >>= fun value => _) (lines.flatMap text)).bind _ = _
  rw [Reader.bind_of_some hdocument]
  rfl

end KeyLine

/-! ## Written values -/

namespace WrittenValue

/-- A value without quotes. -/
def ofLexeme (text : List Char) (item : Item) (hne : text ≠ [])
    (htext : ∀ c ∈ text, isLexemeChar c = true) (hdate : isDate text = false)
    (hitem : Item.ofLexeme? text = some item) : WrittenValue where
  shown := text
  item := item
  shown_starts := by
    obtain ⟨c, cs, rfl⟩ := List.exists_cons_of_ne_nil hne
    have hc := htext c List.mem_cons_self
    exact fun rest => .cons (isBlank_of_class hc (by decide) (by decide)) _
  shown_reads := fun rest => value_of_lexeme hne htext hdate hitem rest _

/-- A number in decimal. -/
def count (n : Nat) (h : n ≤ Settings.largestNumber) : WrittenValue :=
  ofLexeme (Nat.toDigits 10 n) (.integer n) Nat.toDigits_ne_nil
    (fun c hc => by simp [isLexemeChar, Char.isAlphanum, isDigit_of_mem_toDigits hc])
    isDate_toDigits
    (by simp [Item.ofLexeme?, boolean?_toDigits, integer?_toDigits h])

/-- A truth value. -/
def truth (b : Bool) : WrittenValue :=
  ofLexeme (toString b).toList (.boolean b) (by cases b <;> decide)
    (List.all_eq_true.1 (by cases b <;> decide)) (by cases b <;> decide) (by cases b <;> rfl)

/-- The name of a rule, in quotes. -/
def rule (r : SynonymRule) : WrittenValue where
  shown := '"' :: (r.name.toList ++ ['"'])
  item := .text r.name
  shown_starts := fun rest => .cons (by decide) _
  shown_reads := by
    have hne : r.name.toList ≠ [] := by cases r <;> decide
    have hname : r.name.toList.all isBasicChar = true := by cases r <;> decide
    intro rest
    have hread := value_quoted hne (List.all_eq_true.1 hname) ('\n' :: rest) (nestingLimit - 1)
    rw [String.ofList_toList] at hread
    simpa using hread

end WrittenValue

/-! ## Written settings -/

namespace SettingsLayer

/-- The layer that gives all settings. -/
def ofSettings (s : Settings) : SettingsLayer where
  maxAlternatives := some s.maxAlternatives
  maxNodes := some s.maxNodes
  synonymRule := some s.synonymRule
  validateUniformLevels := some s.validateUniformLevels
  strictTokens := some s.strictTokens

/-- A layer that gives everything hides what is below it. -/
theorem overlay_ofSettings (base s : Settings) : base.overlay (ofSettings s) = s := rfl

end SettingsLayer

namespace Settings

variable {s : Settings}

/-- The lines of settings that can be written. -/
def lines (s : Settings) (h : s.Writable) : List KeyLine :=
  [ ⟨.count s.maxAlternatives h.maxAlternatives_le, "max-alternatives", by decide, by decide⟩,
    ⟨.count s.maxNodes h.maxNodes_le, "max-nodes", by decide, by decide⟩,
    ⟨.rule s.synonymRule, "synonym-rule", by decide, by decide⟩,
    ⟨.truth s.validateUniformLevels, "validate-uniform-levels", by decide, by decide⟩,
    ⟨.truth s.strictTokens, "strict-tokens", by decide, by decide⟩ ]

/-- The written form is made of these lines. -/
theorem Writable.toText?_eq (h : s.Writable) :
    s.toText? = some (String.ofList ((s.lines h).flatMap KeyLine.text)) := by
  unfold toText?
  rw [if_pos ⟨h.maxAlternatives_le, h.maxNodes_le⟩, Option.some_inj, ← String.toList_inj,
    String.toList_ofList]
  simp [lines, KeyLine.text, WrittenValue.count, WrittenValue.truth, WrittenValue.rule,
    WrittenValue.ofLexeme, String.join]
  rfl

/-- A key that is there gives what is read of its item. -/
theorem setting?_of_lookup {α : Type} {entries : Entries} (key : String) {item : Item}
    {read : Item → Option α} {a : α} (hitem : entries.lookup key = some item)
    (hread : read item = some a) : entries.setting? key read = some (some a) := by
  unfold Entries.setting?
  rw [hitem]
  simp [hread]

/-- What is read from the written form: every setting. -/
theorem Writable.ofText?_lines (h : s.Writable) :
    SettingsLayer.ofText? (String.ofList ((s.lines h).flatMap KeyLine.text)) =
      some (.ofSettings s) := by
  -- each value is read as what it was written from
  have hcount : ∀ n : Nat, (Item.integer n).count? = some n := fun n => by simp [Item.count?]
  have htruth : ∀ b, (Item.boolean b).truth? = some b := fun _ => rfl
  unfold SettingsLayer.ofText?
  rw [KeyLine.read?_document (by simp [lines]) (by simp [lines])]
  show SettingsLayer.ofEntries?
    [ ("max-alternatives", .integer s.maxAlternatives), ("max-nodes", .integer s.maxNodes),
      ("synonym-rule", .text s.synonymRule.name),
      ("validate-uniform-levels", .boolean s.validateUniformLevels),
      ("strict-tokens", .boolean s.strictTokens) ] = _
  unfold SettingsLayer.ofEntries?
  rw [setting?_of_lookup "max-alternatives" rfl (hcount _),
    setting?_of_lookup "max-nodes" rfl (hcount _),
    setting?_of_lookup "synonym-rule" rfl (SynonymRule.ofName?_name _),
    setting?_of_lookup "validate-uniform-levels" rfl (htruth _),
    setting?_of_lookup "strict-tokens" rfl (htruth _)]
  rfl

/-- What the written form gives is all settings. -/
theorem ofText?_of_toText? {text : String} (h : s.toText? = some text) :
    SettingsLayer.ofText? text = some (.ofSettings s) := by
  have hwritable : s.Writable := toText?_isSome_iff.1 (by simp [h])
  rw [hwritable.toText?_eq, Option.some_inj] at h
  rw [← h]
  exact hwritable.ofText?_lines

/-! ## Loading what was written -/

variable {host : Host} {file text : String}

/-- A file with the written form is read as the layer that gives all settings. -/
theorem readLayer_of_toText? (htext : s.toText? = some text)
    (hfile : host.file file = .contents text) : readLayer host file = .ok (.ofSettings s) :=
  readLayer_eq_ok_iff.2 ⟨text, hfile, ofText?_of_toText? htext⟩

/-- A file with the written form of settings stands for them. -/
theorem ofFile_of_toText? (htext : s.toText? = some text)
    (hfile : host.file file = .contents text) : ofFile host file = .ok s := by
  unfold ofFile
  rw [readLayer_of_toText? htext hfile]
  exact congrArg Except.ok (SettingsLayer.overlay_ofSettings {} s)

/-- An environment in which no variable sets anything gives nothing. -/
theorem ofEnvironment_of_none {environment : List (String × String)}
    (h : ∀ entry ∈ environment, SettingsLayer.settingOfVariable? entry.1 = none) :
    SettingsLayer.ofEnvironment environment = .ok {} := by
  -- no entry of the environment is for any setting
  have hnone : ∀ setting, SettingsLayer.variableFor? environment setting = none := by
    intro setting
    unfold SettingsLayer.variableFor?
    rw [Option.map_eq_none_iff, List.find?_eq_none]
    intro entry hmem
    simp [h entry (List.mem_reverse.1 hmem)]
  unfold SettingsLayer.ofEnvironment SettingsLayer.countOfVariable SettingsLayer.ruleOfVariable
  simp only [hnone]
  rfl

/-- The written form, named by the user, hides what the global file gives. -/
theorem load_of_toText? {layer : SettingsLayer} (htext : s.toText? = some text)
    (hfile : host.file file = .contents text) (hglobal : globalLayer host = .ok layer)
    (hnone : ∀ entry ∈ host.environment, SettingsLayer.settingOfVariable? entry.1 = none) :
    load host (some file) = .ok s := by
  have hnamed : explicitLayer host (some file) = .ok (.ofSettings s) :=
    readLayer_of_toText? htext hfile
  unfold load
  rw [hglobal, hnamed, ofEnvironment_of_none hnone]
  -- the layers in order: defaults, global file, named file, environment
  show Except.ok (((({} : Settings).overlay layer).overlay (.ofSettings s)).overlay {}) = _
  rw [overlay_empty, SettingsLayer.overlay_ofSettings]

/-- The layer of the global file depends on what is under its name and on nothing else. -/
theorem globalLayer_congr {other : Host}
    (hname : other.globalSettingsFile? = host.globalSettingsFile?)
    (hentry : ∀ global ∈ host.globalSettingsFile?, other.file global = host.file global) :
    globalLayer other = globalLayer host := by
  unfold globalLayer
  rw [hname]
  split
  · rfl
  · rename_i global hglobal
    have hsame : other.file global = host.file global := hentry global hglobal
    unfold readLayer
    rw [hsame]

/-- What is shown of settings that can be written: a heading, and below it the written form. -/
theorem execute_showSettings {named : Option String} (hload : load host named = .ok s)
    (htext : s.toText? = some text) (verbosity : Nat) :
    Invocation.execute { verbosity, settingsFile := named, command := some .showSettings } host =
      { exitCode := 0, transcript := { output := "Effective settings\n" ++ text } } := by
  -- the settings are loaded first, and then shown below the heading
  have hrun : Run.Prints (Invocation.run
      { verbosity, settingsFile := named, command := some .showSettings } host)
      ("Effective settings\n" ++ text) "" := by
    unfold Invocation.run
    show Run.Prints (Run.ofSettings (load host named) >>= fun s => s.display) _ _
    rw [hload]
    exact display_prints htext
  unfold Invocation.execute
  rw [hrun.outcome]
  simp

/-- Loaded settings are shown below a heading as a text that stands for them: a file with that text
gives the same settings by itself, and over the same global file when no variable sets anything.
Their counts are at most `2 ^ 63 - 1`. -/
theorem reload_written {named : Option String} (h : load host named = .ok s) :
    s.maxAlternatives ≤ 9223372036854775807 ∧ s.maxNodes ≤ 9223372036854775807 ∧
    ∃ text, s.toText? = some text ∧
      (∀ verbosity, Invocation.execute
        { verbosity, settingsFile := named, command := some .showSettings } host =
          { exitCode := 0, transcript := { output := "Effective settings\n" ++ text } }) ∧
      ∀ (other : Host) (file : String), other.file file = .contents text →
        ofFile other file = .ok s ∧
        (other.globalSettingsFile? = host.globalSettingsFile? →
          (∀ global ∈ host.globalSettingsFile?, other.file global = host.file global) →
          (∀ entry ∈ other.environment, SettingsLayer.settingOfVariable? entry.1 = none) →
          load other (some file) = .ok s) := by
  have hwritable := Writable.of_load h
  obtain ⟨text, htext⟩ := Option.isSome_iff_exists.1 (toText?_isSome_iff.2 hwritable)
  obtain ⟨layer, hlayer, -⟩ := Except.bind_eq_ok_iff.1 h
  refine ⟨hwritable.maxAlternatives_le, hwritable.maxNodes_le, text, htext,
    execute_showSettings h htext, fun other file hfile => ?_⟩
  -- the text gives every setting, so the layers below it do not matter
  have halone := ofFile_of_toText? htext hfile
  refine ⟨halone, fun hname hentry hnone => ?_⟩
  exact load_of_toText? htext hfile ((globalLayer_congr hname hentry).trans hlayer) hnone

/-- A variable that asks for more nodes than a settings file can hold is held to the most it can. -/
theorem reload_written_clamped :
    let host : Host := {
      environment := [("HOME", "/home/me"), ("treepath_MAX_NODES", "1e30")]
      file := fun file =>
        if file = "/home/me/.config/treepath/treepath.toml" then .contents "strict-tokens = true\n"
        else .absent "No such file or directory (os error 2)" }
    let s : Settings := { maxNodes := 9223372036854775807, strictTokens := true }
    load host none = .ok s ∧ s.maxNodes ≤ 9223372036854775807 ∧ ∃ text, s.toText? = some text ∧
      ∀ (other : Host) (file : String), other.file file = .contents text →
        ofFile other file = .ok s := by
  intro host s
  have hload : load host none = .ok s := by decide +kernel
  obtain ⟨-, hnodes, text, htext, -, hreload⟩ := reload_written hload
  exact ⟨hload, hnodes, text, htext, fun other file hfile => (hreload other file hfile).1⟩

/-- With its heading, what is shown of the settings is no settings file. -/
theorem shown_with_heading_malformed :
    let shown := "Effective settings\nmax-alternatives = 12\nmax-nodes = 1000000\n" ++
      "synonym-rule = \"distinct-label\"\nvalidate-uniform-levels = false\nstrict-tokens = false\n"
    let host : Host := { environment := [], file := fun _ => .contents shown }
    load host none = .ok {} ∧
      Invocation.execute { command := some .showSettings } host =
        { exitCode := 0, transcript := { output := shown } } ∧
      ofFile host "/saved.toml" = .error (.malformed "/saved.toml") := by
  decide +kernel

end Settings

end ComboTree
