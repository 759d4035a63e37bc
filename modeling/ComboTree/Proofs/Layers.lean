import ComboTree.Proofs.Lists
import ComboTree.Settings.Load
import Mathlib.Control.Monad.Basic

/-!
# Where each setting comes from

Loading looks at the global settings file, at the file that the user names and at the variables of
the environment, one check after the other, and the first check that fails is the fault.  When none
fails, each setting is that of the topmost layer that gives it.  A `Setting` is one of the five with
the names under which the layers give it, so that what is said of one is said of all: the key of one
setting has no part in the value of another.

## Key results

- `readLayer_eq_ok_iff`, `readLayer_eq_error_iff`: what a settings file gives
- `variableFor?_eq_some_iff`: which variable gives a setting, when no two names are the same
- `load_eq_ok_iff`, `load_eq_error_iff`: the three layers, and the first that cannot be used
- `load_decides`: the checks in their order, and the settings when all are passed
-/

namespace ComboTree

open Toml (Entries Item)

/-! ## One setting -/

/-- One of the settings, with its names in the layers and what is made of its values there. -/
structure Setting (α : Type) where
  /-- The key in a settings file. -/
  key : String
  /-- The name of the variable, in lower case and without what all such names start with. -/
  variableName : String
  ofItem? : Item → Option α
  ofVariable? : VariableValue → Option α
  value : Settings → α

namespace Setting

/-- A count that a variable gives. -/
def countOf? (v : VariableValue) : Option Nat :=
  v.toInteger?.bind fun n => if 0 ≤ n then some n.toNat else none

def maxAlternatives : Setting Nat where
  key := "max-alternatives"
  variableName := "max_alternatives"
  ofItem? := Item.count?
  ofVariable? := countOf?
  value := Settings.maxAlternatives

def maxNodes : Setting Nat where
  key := "max-nodes"
  variableName := "max_nodes"
  ofItem? := Item.count?
  ofVariable? := countOf?
  value := Settings.maxNodes

def synonymRule : Setting SynonymRule where
  key := "synonym-rule"
  variableName := "synonym_rule"
  ofItem? := Item.synonymRule?
  ofVariable? := fun v => SynonymRule.ofName? v.toText
  value := Settings.synonymRule

def validateUniformLevels : Setting Bool where
  key := "validate-uniform-levels"
  variableName := "validate_uniform_levels"
  ofItem? := Item.truth?
  ofVariable? := VariableValue.toBoolean?
  value := Settings.validateUniformLevels

def strictTokens : Setting Bool where
  key := "strict-tokens"
  variableName := "strict_tokens"
  ofItem? := Item.truth?
  ofVariable? := VariableValue.toBoolean?
  value := Settings.strictTokens

variable {α : Type}

/-- What the environment gives for a setting. -/
def inEnvironment? (setting : Setting α) (host : Host) : Option α :=
  (SettingsLayer.variableFor? host.environment setting.variableName).bind setting.ofVariable?

/-- What the text of a settings file gives for a setting. -/
def inText? (setting : Setting α) (text : String) : Option α :=
  (Toml.read? text).bind fun entries => (entries.lookup setting.key).bind setting.ofItem?

/-- What a settings file gives for a setting, if there is one. -/
def inFile? (setting : Setting α) (host : Host) : Option String → Option α
  | none => none
  | some file =>
    match host.file file with
    | .contents text => setting.inText? text
    | _ => none

/-- What the topmost layer that gives a setting has for it: the environment, then the file that the
user names, then the global file, then the default. -/
def topmost (setting : Setting α) (host : Host) (named : Option String) : α :=
  ((setting.inEnvironment? host).or
    ((setting.inFile? host named).or (setting.inFile? host host.globalSettingsFile?))).getD
      (setting.value {})

end Setting

namespace Settings

/-- Every setting is that of the topmost layer that gives it. -/
structure Layered (host : Host) (named : Option String) (s : Settings) : Prop where
  maxAlternatives_eq : s.maxAlternatives = Setting.maxAlternatives.topmost host named
  maxNodes_eq : s.maxNodes = Setting.maxNodes.topmost host named
  synonymRule_eq : s.synonymRule = Setting.synonymRule.topmost host named
  validateUniformLevels_eq :
    s.validateUniformLevels = Setting.validateUniformLevels.topmost host named
  strictTokens_eq : s.strictTokens = Setting.strictTokens.topmost host named

/-- What can be wrong with the layers, with the number of the check that finds it. -/
inductive LoadProblem (host : Host) (named : Option String) : Nat → SettingsFault → Prop where
  | globalUnreadable {file reason : String} : host.globalSettingsFile? = some file →
    host.file file = .unreadable reason → LoadProblem host named 0 (.unreadable file reason)
  | globalMalformed {file text : String} : host.globalSettingsFile? = some file →
    host.file file = .contents text → SettingsLayer.ofText? text = none →
    LoadProblem host named 0 (.malformed file)
  | explicitAbsent {file reason : String} : named = some file →
    host.file file = .absent reason → LoadProblem host named 1 (.unreadable file reason)
  | explicitUnreadable {file reason : String} : named = some file →
    host.file file = .unreadable reason → LoadProblem host named 1 (.unreadable file reason)
  | explicitMalformed {file text : String} : named = some file →
    host.file file = .contents text → SettingsLayer.ofText? text = none →
    LoadProblem host named 1 (.malformed file)
  | negativeAlternatives {v : VariableValue} {n : Int} :
    SettingsLayer.variableFor? host.environment "max_alternatives" = some v →
    v.toInteger? = some n → n < 0 →
    LoadProblem host named 2 (.outOfRange "TREEPATH_MAX_ALTERNATIVES" n)
  | negativeNodes {v : VariableValue} {n : Int} :
    SettingsLayer.variableFor? host.environment "max_nodes" = some v →
    v.toInteger? = some n → n < 0 →
    LoadProblem host named 3 (.outOfRange "TREEPATH_MAX_NODES" n)
  | unknownRule {v : VariableValue} :
    SettingsLayer.variableFor? host.environment "synonym_rule" = some v →
    SynonymRule.ofName? v.toText = none →
    LoadProblem host named 4 (.unknownRule v.toText)

end Settings

/-! ## Files -/

section Files

variable {host : Host} {file text : String} {layer : SettingsLayer} {fault : SettingsFault}

namespace Settings

/-- A file that can be read and is a settings file gives its layer. -/
theorem readLayer_eq_ok_iff : readLayer host file = .ok layer ↔
    ∃ text, host.file file = .contents text ∧ SettingsLayer.ofText? text = some layer := by
  unfold readLayer
  -- only a file with contents gets as far as being read as settings
  cases host.file file with
  | contents text =>
    simp only [FileEntry.read, Except.mapError, bind, Except.bind, FileEntry.contents.injEq,
      exists_eq_left']
    cases SettingsLayer.ofText? text <;>
      simp [pure, Except.pure, throw, throwThe, MonadExceptOf.throw]
  | unreadable reason => simp [FileEntry.read, Except.mapError, bind, Except.bind]
  | absent reason => simp [FileEntry.read, Except.mapError, bind, Except.bind]

/-- Any other file gives the fault. -/
theorem readLayer_eq_error_iff : readLayer host file = .error fault ↔
    (∃ reason, (host.file file = .unreadable reason ∨ host.file file = .absent reason) ∧
      fault = .unreadable file reason) ∨
    ∃ text, host.file file = .contents text ∧ SettingsLayer.ofText? text = none ∧
      fault = .malformed file := by
  unfold readLayer
  cases host.file file with
  | contents text =>
    simp only [FileEntry.read, Except.mapError, bind, Except.bind, FileEntry.contents.injEq,
      exists_eq_left']
    cases SettingsLayer.ofText? text <;>
      simp [pure, Except.pure, throw, throwThe, MonadExceptOf.throw, eq_comm]
  | unreadable reason => simp [FileEntry.read, Except.mapError, bind, Except.bind, eq_comm]
  | absent reason => simp [FileEntry.read, Except.mapError, bind, Except.bind, eq_comm]

end Settings

namespace SettingsLayer

/-- What a settings file gives for each setting; nothing, if there is no file. -/
def ofFile (host : Host) (file? : Option String) : SettingsLayer where
  maxAlternatives := Setting.maxAlternatives.inFile? host file?
  maxNodes := Setting.maxNodes.inFile? host file?
  synonymRule := Setting.synonymRule.inFile? host file?
  validateUniformLevels := Setting.validateUniformLevels.inFile? host file?
  strictTokens := Setting.strictTokens.inFile? host file?

/-- A key whose item can be read gives what is read, and a key that is not there nothing. -/
theorem setting?_eq_some {α : Type} {entries : Entries} {key : String} {read : Item → Option α}
    {value : Option α} (h : entries.setting? key read = some value) :
    value = (entries.lookup key).bind read := by
  unfold Toml.Entries.setting? at h
  split at h
  · rename_i hkey
    rw [hkey, ← Option.some.inj h]
    rfl
  · -- the key is there, and its item could be read
    rename_i item hkey
    obtain ⟨a, ha, hvalue⟩ := Option.map_eq_some_iff.1 h
    rw [hkey, Option.bind_some, ha, hvalue]

/-- The layer of a settings file has each setting from its own key. -/
theorem eq_ofFile (hfile : host.file file = .contents text) (h : ofText? text = some layer) :
    layer = ofFile host (some file) := by
  obtain ⟨entries, hread, h⟩ := Option.bind_eq_some_iff.1 h
  -- the five keys are read one after the other
  obtain ⟨maxAlternatives, h₁, h⟩ := Option.bind_eq_some_iff.1 h
  obtain ⟨maxNodes, h₂, h⟩ := Option.bind_eq_some_iff.1 h
  obtain ⟨synonymRule, h₃, h⟩ := Option.bind_eq_some_iff.1 h
  obtain ⟨validateUniformLevels, h₄, h⟩ := Option.bind_eq_some_iff.1 h
  obtain ⟨strictTokens, h₅, h⟩ := Option.bind_eq_some_iff.1 h
  rw [← Option.some.inj h]
  simp only [ofFile, Setting.inFile?, hfile, Setting.inText?, hread, Option.bind_some]
  rw [setting?_eq_some h₁, setting?_eq_some h₂, setting?_eq_some h₃, setting?_eq_some h₄,
    setting?_eq_some h₅]
  rfl

end SettingsLayer

namespace Settings

variable {named : Option String}

/-- The global file gives its layer if it can be used or is not there. -/
theorem globalLayer_eq_ok (h : globalLayer host = .ok layer) :
    layer = .ofFile host host.globalSettingsFile? := by
  unfold globalLayer at h
  split at h
  · rename_i hfile
    rw [hfile, ← Except.ok.inj h]
    rfl
  · rename_i file hfile
    rw [hfile]
    split at h
    · obtain ⟨text, htext, hlayer⟩ := readLayer_eq_ok_iff.1 h
      exact SettingsLayer.eq_ofFile htext hlayer
    · -- there is nothing under the name of the global file
      rename_i habsent
      rw [← Except.ok.inj h]
      cases hentry : host.file file with
      | absent reason => simp [SettingsLayer.ofFile, Setting.inFile?, hentry]
      | contents text => simp [hentry, FileEntry.isPresent] at habsent
      | unreadable reason => simp [hentry, FileEntry.isPresent] at habsent

/-- The global file is the fault if it is there and cannot be used. -/
theorem globalLayer_eq_error_iff :
    globalLayer host = .error fault ↔ LoadProblem host named 0 fault := by
  unfold globalLayer
  constructor
  · intro h
    split at h
    · exact nomatch h
    · rename_i file hfile
      split at h
      · rename_i hpresent
        -- a file that is present can be unreadable or malformed, but not absent
        rcases readLayer_eq_error_iff.1 h with
          ⟨reason, hentry | hentry, rfl⟩ | ⟨text, htext, hnone, rfl⟩
        · exact .globalUnreadable hfile hentry
        · simp [hentry, FileEntry.isPresent] at hpresent
        · exact .globalMalformed hfile htext hnone
      · exact nomatch h
  · intro h
    cases h with
    | globalUnreadable hfile hentry =>
      simp only [hfile, hentry, FileEntry.isPresent, if_true]
      exact readLayer_eq_error_iff.2 (.inl ⟨_, .inl hentry, rfl⟩)
    | globalMalformed hfile htext hnone =>
      simp only [hfile, htext, FileEntry.isPresent, if_true]
      exact readLayer_eq_error_iff.2 (.inr ⟨_, htext, hnone, rfl⟩)

/-- The file that the user names gives its layer if it can be used. -/
theorem explicitLayer_eq_ok (h : explicitLayer host named = .ok layer) :
    layer = .ofFile host named := by
  unfold explicitLayer at h
  split at h
  · rw [← Except.ok.inj h]
    rfl
  · obtain ⟨text, htext, hlayer⟩ := readLayer_eq_ok_iff.1 h
    exact SettingsLayer.eq_ofFile htext hlayer

/-- The file that the user names is the fault if it cannot be used, or is not there. -/
theorem explicitLayer_eq_error_iff :
    explicitLayer host named = .error fault ↔ LoadProblem host named 1 fault := by
  unfold explicitLayer
  constructor
  · intro h
    split at h
    · exact nomatch h
    · -- here nothing asks first whether the file is there
      rcases readLayer_eq_error_iff.1 h with
        ⟨reason, hentry | hentry, rfl⟩ | ⟨text, htext, hnone, rfl⟩
      · exact .explicitUnreadable rfl hentry
      · exact .explicitAbsent rfl hentry
      · exact .explicitMalformed rfl htext hnone
  · intro h
    cases h with
    | explicitUnreadable hfile hentry =>
      rw [hfile]
      exact readLayer_eq_error_iff.2 (.inl ⟨_, .inl hentry, rfl⟩)
    | explicitAbsent hfile hentry =>
      rw [hfile]
      exact readLayer_eq_error_iff.2 (.inl ⟨_, .inr hentry, rfl⟩)
    | explicitMalformed hfile htext hnone =>
      rw [hfile]
      exact readLayer_eq_error_iff.2 (.inr ⟨_, htext, hnone, rfl⟩)

end Settings

end Files

/-! ## The environment -/

section Environment

variable {host : Host} {named : Option String} {fault : SettingsFault}

namespace SettingsLayer

/-- No two variables have the same name in lower case. -/
def DistinctNames (environment : List (String × String)) : Prop :=
  (environment.map fun entry => entry.1.toList.map lowerNameChar).Nodup

/-- A variable that sets something has this name in lower case. -/
theorem lower_eq_of_settingOfVariable? {name setting : String}
    (h : settingOfVariable? name = some setting) :
    name.toList.map lowerNameChar = "treepath_".toList ++ setting.toList := by
  unfold settingOfVariable? at h
  simp only [Option.ite_none_right_eq_some, Option.some.injEq, List.isPrefixOf_iff_prefix] at h
  obtain ⟨⟨rest, hrest⟩, rfl⟩ := h
  rw [← hrest, List.drop_left]
  simp

/-- Among distinct names only one sets a setting, wherever it stands. -/
theorem variableFor?_eq_some_iff {environment : List (String × String)}
    (h : DistinctNames environment) {setting : String} {v : VariableValue} :
    variableFor? environment setting = some v ↔ ∃ entry ∈ environment,
      settingOfVariable? entry.1 = some setting ∧ VariableValue.ofText entry.2 = v := by
  unfold variableFor?
  rw [Option.map_eq_some_iff]
  constructor
  · intro ⟨entry, hfind, hv⟩
    have hname := List.find?_some hfind
    exact ⟨entry, List.mem_reverse.1 (List.mem_of_find?_eq_some hfind), by simpa using hname, hv⟩
  · intro ⟨entry, hentry, hname, hv⟩
    refine ⟨entry, ?_, hv⟩
    -- the search stops at `entry` or at one that sets the same thing
    cases hfind : environment.reverse.find? fun e => settingOfVariable? e.1 = some setting with
    | none =>
      have hno := List.find?_eq_none.1 hfind entry (List.mem_reverse.2 hentry)
      simp [hname] at hno
    | some other =>
      -- the other one has the same name in lower case
      have hother := List.find?_some hfind
      simp only [decide_eq_true_eq] at hother
      have hlower := (lower_eq_of_settingOfVariable? hother).trans
        (lower_eq_of_settingOfVariable? hname).symm
      rw [List.inj_on_of_nodup_map h (List.mem_reverse.1 (List.mem_of_find?_eq_some hfind)) hentry
        hlower]

/-- What the environment gives for each setting. -/
def ofVariables (host : Host) : SettingsLayer where
  maxAlternatives := Setting.maxAlternatives.inEnvironment? host
  maxNodes := Setting.maxNodes.inEnvironment? host
  synonymRule := Setting.synonymRule.inEnvironment? host
  validateUniformLevels := Setting.validateUniformLevels.inEnvironment? host
  strictTokens := Setting.strictTokens.inEnvironment? host

/-- A count from the environment is what its variable gives. -/
theorem countOfVariable_eq_ok {environment : List (String × String)} {setting shown : String}
    {count : Option Nat} (h : countOfVariable environment setting shown = .ok count) :
    count = (variableFor? environment setting).bind Setting.countOf? := by
  unfold countOfVariable at h
  unfold Setting.countOf?
  -- both sides turn the variable into an integer first
  rw [← Option.bind_assoc]
  split at h
  · rename_i hnone
    rw [hnone, ← Except.ok.inj h]
    rfl
  · rename_i n hn
    split at h
    · rename_i hpos
      rw [hn, ← Except.ok.inj h, Option.bind_some, if_pos hpos]
    · exact nomatch h

/-- A count from the environment is refused if it is negative. -/
theorem countOfVariable_eq_error_iff {environment : List (String × String)}
    {setting shown : String} : countOfVariable environment setting shown = .error fault ↔
      ∃ v n, variableFor? environment setting = some v ∧ v.toInteger? = some n ∧ n < 0 ∧
        fault = .outOfRange shown n := by
  unfold countOfVariable
  constructor
  · intro h
    split at h
    · exact nomatch h
    · rename_i n hn
      obtain ⟨v, hv, hn⟩ := Option.bind_eq_some_iff.1 hn
      split at h
      · exact nomatch h
      · exact ⟨v, n, hv, hn, by omega, (Except.error.inj h).symm⟩
  · intro ⟨v, n, hv, hn, hneg, hfault⟩
    simp only [hv, Option.bind_some, hn]
    rw [if_neg (by omega), hfault]

/-- A rule from the environment is the one that its variable names. -/
theorem ruleOfVariable_eq_ok {environment : List (String × String)} {rule : Option SynonymRule}
    (h : ruleOfVariable environment = .ok rule) :
    rule = (variableFor? environment "synonym_rule").bind Setting.synonymRule.ofVariable? := by
  unfold ruleOfVariable at h
  split at h
  · rename_i hnone
    rw [hnone, ← Except.ok.inj h]
    rfl
  · rename_i v hv
    rw [hv, Option.bind_some]
    split at h
    · rename_i found hfound
      rw [← Except.ok.inj h]
      exact hfound.symm
    · exact nomatch h

/-- A rule from the environment is refused if no rule has its name. -/
theorem ruleOfVariable_eq_error_iff {environment : List (String × String)} :
    ruleOfVariable environment = .error fault ↔
      ∃ v, variableFor? environment "synonym_rule" = some v ∧
        SynonymRule.ofName? v.toText = none ∧ fault = .unknownRule v.toText := by
  unfold ruleOfVariable
  cases variableFor? environment "synonym_rule" with
  | none => simp
  | some v => cases hrule : SynonymRule.ofName? v.toText <;> simp [hrule, eq_comm]

end SettingsLayer

namespace Settings

open SettingsLayer (countOfVariable ruleOfVariable)

/-- Each problem is what one step of loading fails with. -/
theorem loadProblem_iff {k : Nat} : LoadProblem host named k fault ↔
    match k with
    | 0 => globalLayer host = .error fault
    | 1 => explicitLayer host named = .error fault
    | 2 => countOfVariable host.environment "max_alternatives" "TREEPATH_MAX_ALTERNATIVES" =
        .error fault
    | 3 => countOfVariable host.environment "max_nodes" "TREEPATH_MAX_NODES" = .error fault
    | 4 => ruleOfVariable host.environment = .error fault
    | _ => False := by
  split
  case h_1 => exact globalLayer_eq_error_iff.symm
  case h_2 => exact explicitLayer_eq_error_iff.symm
  -- the two counts have the same check, under different names
  case h_3 =>
    rw [SettingsLayer.countOfVariable_eq_error_iff]
    constructor
    · intro h
      cases h with
      | negativeAlternatives hv hn hneg => exact ⟨_, _, hv, hn, hneg, rfl⟩
    · intro ⟨v, n, hv, hn, hneg, hfault⟩
      rw [hfault]
      exact .negativeAlternatives hv hn hneg
  case h_4 =>
    rw [SettingsLayer.countOfVariable_eq_error_iff]
    constructor
    · intro h
      cases h with
      | negativeNodes hv hn hneg => exact ⟨_, _, hv, hn, hneg, rfl⟩
    · intro ⟨v, n, hv, hn, hneg, hfault⟩
      rw [hfault]
      exact .negativeNodes hv hn hneg
  case h_5 =>
    rw [SettingsLayer.ruleOfVariable_eq_error_iff]
    constructor
    · intro h
      cases h with
      | unknownRule hv hrule => exact ⟨_, hv, hrule, rfl⟩
    · intro ⟨v, hv, hrule, hfault⟩
      rw [hfault]
      exact .unknownRule hv hrule
  case h_6 h₀ h₁ h₂ h₃ h₄ =>
    constructor
    · intro h
      cases h <;> contradiction
    · exact False.elim

/-- One check finds one problem at most. -/
theorem LoadProblem.unique {k : Nat} {other : SettingsFault} (h : LoadProblem host named k fault)
    (hother : LoadProblem host named k other) : fault = other := by
  rw [loadProblem_iff] at h hother
  split at h
  case h_6 => exact h.elim
  all_goals exact Except.error.inj (h.symm.trans hother)

end Settings

end Environment

/-! ## All layers -/

namespace Settings

open SettingsLayer (DistinctNames countOfVariable ruleOfVariable ofEnvironment variableFor?
  settingOfVariable?)

variable {host : Host} {named : Option String} {fault : SettingsFault} {s : Settings}

/-- Loading succeeds when all of its steps do. -/
theorem load_eq_ok (h : load host named = .ok s) :
    s = ((({} : Settings).overlay (.ofFile host host.globalSettingsFile?)).overlay
      (.ofFile host named)).overlay (.ofVariables host) ∧
    ∀ k f, ¬ LoadProblem host named k f := by
  -- the steps of loading in their order, each of which has succeeded
  obtain ⟨everywhere, hglobal, h⟩ := Except.bind_eq_ok_iff.1 h
  obtain ⟨explicit, hexplicit, h⟩ := Except.bind_eq_ok_iff.1 h
  obtain ⟨environment, henvironment, h⟩ := Except.bind_eq_ok_iff.1 h
  obtain ⟨maxAlternatives, h₂, henvironment⟩ := Except.bind_eq_ok_iff.1 henvironment
  obtain ⟨maxNodes, h₃, henvironment⟩ := Except.bind_eq_ok_iff.1 henvironment
  obtain ⟨rule, h₄, henvironment⟩ := Except.bind_eq_ok_iff.1 henvironment
  constructor
  · rw [← globalLayer_eq_ok hglobal, ← explicitLayer_eq_ok hexplicit, ← Except.ok.inj h,
      ← Except.ok.inj henvironment, SettingsLayer.countOfVariable_eq_ok h₂,
      SettingsLayer.countOfVariable_eq_ok h₃, SettingsLayer.ruleOfVariable_eq_ok h₄]
    rfl
  · -- a problem would have stopped the step that finds it
    intro k f hproblem
    rw [loadProblem_iff] at hproblem
    split at hproblem
    · exact nomatch hglobal.symm.trans hproblem
    · exact nomatch hexplicit.symm.trans hproblem
    · exact nomatch h₂.symm.trans hproblem
    · exact nomatch h₃.symm.trans hproblem
    · exact nomatch h₄.symm.trans hproblem
    · exact hproblem

/-- The problem that is found first is `fault`. -/
def FirstProblem (host : Host) (named : Option String) (fault : SettingsFault) : Prop :=
  ∃ k, LoadProblem host named k fault ∧ ∀ j < k, ∀ f, ¬ LoadProblem host named j f

/-- One check: it finds the first problem, or there is one check more without any. -/
theorem firstProblem_or_passed {α β : Type} {step : Except SettingsFault α}
    {rest : α → Except SettingsFault β} {k : Nat}
    (hstep : ∀ f, LoadProblem host named k f ↔ step = .error f)
    (before : ∀ j < k, ∀ f, ¬ LoadProblem host named j f) (h : step >>= rest = .error fault) :
    FirstProblem host named fault ∨
      ∃ a, rest a = .error fault ∧ ∀ j < k + 1, ∀ f, ¬ LoadProblem host named j f := by
  rcases Except.bind_eq_error_iff.1 h with hfault | ⟨a, ha, hrest⟩
  · exact .inl ⟨k, (hstep fault).2 hfault, before⟩
  · -- a step that succeeds has found nothing
    refine .inr ⟨a, hrest, Nat.forall_lt_succ_right.2 ⟨before, fun f hf => ?_⟩⟩
    rw [hstep, ha] at hf
    exact nomatch hf

/-- Loading fails with the first problem. -/
theorem firstProblem_of_load (h : load host named = .error fault) :
    FirstProblem host named fault := by
  have before : ∀ j < 0, ∀ f, ¬ LoadProblem host named j f :=
    fun j hj => absurd hj (Nat.not_lt_zero j)
  -- one check after the other, with what all checks before have not found
  rcases firstProblem_or_passed (fun _ => loadProblem_iff) before h with h | ⟨_, h, before⟩
  · exact h
  rcases firstProblem_or_passed (fun _ => loadProblem_iff) before h with h | ⟨_, h, before⟩
  · exact h
  rcases Except.bind_eq_error_iff.1 h with h | ⟨_, _, h⟩
  · rcases firstProblem_or_passed (fun _ => loadProblem_iff) before h with h | ⟨_, h, before⟩
    · exact h
    rcases firstProblem_or_passed (fun _ => loadProblem_iff) before h with h | ⟨_, h, before⟩
    · exact h
    rcases firstProblem_or_passed (fun _ => loadProblem_iff) before h with h | ⟨_, h, _⟩
    · exact h
    · exact nomatch h
  · exact nomatch h

/-- Loading fails exactly with the first problem. -/
theorem load_eq_error_iff : load host named = .error fault ↔ FirstProblem host named fault := by
  constructor
  · exact firstProblem_of_load
  · intro ⟨k, hproblem, hfirst⟩
    cases hload : load host named with
    | ok s => exact absurd hproblem ((load_eq_ok hload).2 k fault)
    | error other =>
      obtain ⟨i, hother, hbefore⟩ := firstProblem_of_load hload
      -- the problem that loading stops at cannot come before or after the first one
      rcases Nat.lt_trichotomy i k with hlt | heq | hgt
      · exact absurd hother (hfirst i hlt other)
      · subst heq
        rw [hother.unique hproblem]
      · exact absurd hproblem (hbefore k hgt fault)

/-- Layers over each other give each setting from the topmost that has it. -/
theorem layered_overlay (host : Host) (named : Option String) :
    Layered host named (((({} : Settings).overlay (.ofFile host host.globalSettingsFile?)).overlay
      (.ofFile host named)).overlay (.ofVariables host)) := by
  constructor <;> simp only [Setting.topmost, Option.getD_or] <;> rfl

/-- The layers fix every setting. -/
theorem Layered.unique {other : Settings} (h : Layered host named s)
    (hother : Layered host named other) : s = other := by
  cases s
  cases other
  simp only [Settings.mk.injEq]
  exact ⟨h.maxAlternatives_eq.trans hother.maxAlternatives_eq.symm,
    h.maxNodes_eq.trans hother.maxNodes_eq.symm, h.synonymRule_eq.trans hother.synonymRule_eq.symm,
    h.validateUniformLevels_eq.trans hother.validateUniformLevels_eq.symm,
    h.strictTokens_eq.trans hother.strictTokens_eq.symm⟩

/-- Loading succeeds exactly if there is no problem, and then gives the topmost layers. -/
theorem load_eq_ok_iff : load host named = .ok s ↔
    (∀ k f, ¬ LoadProblem host named k f) ∧ Layered host named s := by
  constructor
  · intro h
    obtain ⟨hs, hnone⟩ := load_eq_ok h
    refine ⟨hnone, ?_⟩
    rw [hs]
    exact layered_overlay host named
  · intro ⟨hnone, hs⟩
    cases hload : load host named with
    | error f =>
      obtain ⟨k, hproblem, _⟩ := load_eq_error_iff.1 hload
      exact absurd hproblem (hnone k f)
    -- loading gives some settings from the topmost layers, and there are no others
    | ok other =>
      have hother := layered_overlay host named
      rw [← (load_eq_ok hload).1] at hother
      rw [hother.unique hs]

/-- Loading fails exactly with the first problem, in the order of the checks: the global file, the
file that the user names, a negative number of alternatives and one of nodes from the environment,
and a rule from there that is none.  When there is none of these, every setting is that of the
topmost layer that gives it, whatever the layers give for the others.  In an environment in which no
two names are the same but for case, the one variable with the name of a setting gives it. -/
theorem load_decides (host : Host) (named : Option String) :
    (∀ fault, load host named = .error fault ↔ FirstProblem host named fault) ∧
    (∀ s, load host named = .ok s ↔
      (∀ k fault, ¬ LoadProblem host named k fault) ∧ Layered host named s) ∧
    (DistinctNames host.environment → ∀ setting v,
      variableFor? host.environment setting = some v ↔ ∃ entry ∈ host.environment,
        settingOfVariable? entry.1 = some setting ∧ VariableValue.ofText entry.2 = v) :=
  ⟨fun _ => load_eq_error_iff, fun _ => load_eq_ok_iff,
    fun h _ _ => SettingsLayer.variableFor?_eq_some_iff h⟩

/-- A truth value from the global file, a number from the file that the user names over one from the
global file, and another from a variable. -/
theorem load_decides_mixed :
    let host : Host := {
      environment := [("XDG_CONFIG_HOME", "/x"), ("Treepath_Max_Alternatives", "YES")]
      file := fun file =>
        if file = "/x/treepath/treepath.toml" then .contents "strict-tokens = true\nmax-nodes = 5\n"
        else if file = "/named.toml" then .contents "max-nodes = 7\n"
        else .absent "No such file or directory (os error 2)" }
    DistinctNames host.environment ∧
      Layered host (some "/named.toml")
        { maxAlternatives := 1, maxNodes := 7, strictTokens := true } ∧
      (∃ entry ∈ host.environment, settingOfVariable? entry.1 = some "max_alternatives" ∧
        VariableValue.ofText entry.2 = .text "YES") ∧
      FirstProblem host (some "/absent.toml")
        (.unreadable "/absent.toml" "No such file or directory (os error 2)") := by
  intro host
  have hdistinct : DistinctNames host.environment := by
    unfold host DistinctNames
    decide
  have hnamed : load host (some "/named.toml") =
      .ok { maxAlternatives := 1, maxNodes := 7, strictTokens := true } := by
    decide +kernel
  have habsent : load host (some "/absent.toml") =
      .error (.unreadable "/absent.toml" "No such file or directory (os error 2)") := by
    decide +kernel
  have hvariable : variableFor? host.environment "max_alternatives" = some (.text "YES") := by
    decide +kernel
  -- the variable is found under its name in lower case, and its truth value counts as a number
  obtain ⟨-, hok, henvironment⟩ := load_decides host (some "/named.toml")
  obtain ⟨herror, -, -⟩ := load_decides host (some "/absent.toml")
  exact ⟨hdistinct, ((hok _).1 hnamed).2, (henvironment hdistinct _ _).1 hvariable,
    (herror _).1 habsent⟩

end Settings

end ComboTree
