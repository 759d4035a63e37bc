import ComboTree.Toml.Document
import Mathlib.Data.List.TakeDrop

/-!
# What readers take off a text

A reader is a function on the characters that are left.  These lemmas say what the readers that
others are built of take from the front of a text, with what follows written out: a run of
characters ends where the rest says so, and nowhere else.

From them it follows how one line `key = value` of a document is read, for a key without quotes and
for the two ways of writing a value that are needed: a lexeme, and a string between double quotes.

## Key results

- `takeWhile_append`, `many_of_one`: runs and repetitions, by what stops them
- `key_append`: a key without quotes
- `value_of_lexeme`, `value_quoted`: a value up to the end of its line
- `line_of_bareKeyChar`, `line_append`: one line
-/

namespace ComboTree.Toml

namespace Reader

variable {α β σ : Type} {s rest : List Char}

/-! ## Steps -/

/-- Two readers in a row, the second made from what the first has taken. -/
theorem bind_apply (p : Reader α) (f : α → Reader β) (s : List Char) :
    (p >>= f) s = (p s).bind fun taken => f taken.1 taken.2 := rfl

/-- The next reader goes on with what the first has left. -/
theorem bind_of_some {p : Reader α} {a : α} (h : p s = some (a, rest)) (f : α → Reader β) :
    (p >>= f) s = f a rest := by
  rw [bind_apply, h, Option.bind_some]

/-- Where the first reader fails, both in a row fail. -/
theorem bind_of_none {p : Reader α} (h : p s = none) (f : α → Reader β) : (p >>= f) s = none := by
  rw [bind_apply, h, Option.bind_none]

/-- A value may be given without taking anything. -/
theorem pure_apply (a : α) (s : List Char) : (pure a : Reader α) s = some (a, s) := rfl

/-- What is taken may be changed before it is handed on. -/
theorem map_apply (f : α → β) (p : Reader α) (s : List Char) :
    (f <$> p) s = (p s).map fun taken => (f taken.1, taken.2) := by
  show (p s).bind _ = _
  cases p s <;> rfl

/-- Where the first of two readers fails, the second is asked. -/
theorem orElse_of_none {p : Reader α} (h : p s = none) (q : Reader α) : (p <|> q) s = q s := by
  show (p s <|> q s) = q s
  rw [h]
  rfl

/-- Where the first takes something, the second is not asked. -/
theorem orElse_of_some {p : Reader α} {taken : α × List Char} (h : p s = some taken)
    (q : Reader α) : (p <|> q) s = some taken := by
  show (p s <|> q s) = some taken
  rw [h]
  rfl

/-- An optional part that is not there takes nothing. -/
theorem optional?_of_none {p : Reader α} (h : p s = none) : optional? p s = some (none, s) := by
  unfold optional?
  rw [orElse_of_none]
  · rfl
  · rw [map_apply, h]
    rfl

/-! ## Characters -/

/-- A character of the class is taken. -/
theorem satisfy_cons_of_pos {p : Char → Bool} {c : Char} (h : p c = true) (rest : List Char) :
    satisfy p (c :: rest) = some (c, rest) := by
  simp [satisfy, h]

/-- Any other one is not. -/
theorem satisfy_cons_of_neg {p : Char → Bool} {c : Char} (h : p c = false) (rest : List Char) :
    satisfy p (c :: rest) = none := by
  simp [satisfy, h]

/-- The expected character is taken. -/
theorem char_cons (c : Char) (rest : List Char) : char c (c :: rest) = some ((), rest) := by
  unfold char
  rw [bind_of_some (satisfy_cons_of_pos (by simp) rest)]
  rfl

/-- Another one is not. -/
theorem char_of_ne {c d : Char} (h : d ≠ c) (rest : List Char) : char c (d :: rest) = none := by
  unfold char
  exact bind_of_none (satisfy_cons_of_neg (by simp [h]) _) _

/-- Characters of which the first is another one. -/
theorem exact_of_ne {c d : Char} (h : d ≠ c) (expected rest : List Char) :
    exact (c :: expected) (d :: rest) = none := by
  show (char c >>= fun _ => expected.forM char) (d :: rest) = none
  exact bind_of_none (char_of_ne h _) _

/-! ## Runs -/

/-- What is left does not go on with a character that satisfies `p`. -/
def Stops (p : Char → Bool) (rest : List Char) : Prop :=
  ∀ c ∈ rest.head?, p c = false

/-- A character outside the class stops a run. -/
theorem Stops.cons {p : Char → Bool} {c : Char} (h : p c = false) (rest : List Char) :
    Stops p (c :: rest) := by
  simpa [Stops] using h

/-- A run ends where what is left does not go on with it. -/
theorem takeWhile_append {p : Char → Bool} (run : List Char) (hrun : ∀ c ∈ run, p c = true)
    (hrest : Stops p rest) : takeWhile p (run ++ rest) = some (run, rest) := by
  -- nothing more is taken from `rest`, whether it is empty or goes on otherwise
  have hend : rest.takeWhile p = [] ∧ rest.dropWhile p = rest := by
    cases rest with
    | nil => simp
    | cons c rest =>
      have hc := hrest c (by simp)
      simp [hc]
  unfold takeWhile
  rw [List.span_eq_takeWhile_dropWhile, List.takeWhile_append_of_pos hrun,
    List.dropWhile_append_of_pos hrun, hend.1, hend.2, List.append_nil]

/-- A run that is stopped at once is empty. -/
theorem takeWhile_of_stops {p : Char → Bool} (hrest : Stops p rest) :
    takeWhile p rest = some ([], rest) :=
  takeWhile_append [] (by simp) hrest

/-- A run of at least one character, by what stops it. -/
theorem takeWhile1_append {p : Char → Bool} {run : List Char} (hne : run ≠ [])
    (hrun : ∀ c ∈ run, p c = true) (hrest : Stops p rest) :
    takeWhile1 p (run ++ rest) = some (run, rest) := by
  unfold takeWhile1
  rw [bind_of_some (takeWhile_append run hrun hrest), if_neg hne]
  rfl

/-- Where no character of the class stands, there is no such run. -/
theorem takeWhile1_of_stops {p : Char → Bool} (hrest : Stops p rest) :
    takeWhile1 p rest = none := by
  unfold takeWhile1
  rw [bind_of_some (takeWhile_of_stops hrest), if_pos rfl]
  rfl

/-! ## Repetitions -/

/-- A repetition ends where a step fails. -/
theorem iterate_of_none {step : σ → Reader σ} {state : σ} (h : step state s = none) :
    iterate step state s = (state, s) := by
  rw [iterate_eq, h]

/-- It goes on after a step that takes something. -/
theorem iterate_of_some {step : σ → Reader σ} {state next : σ}
    (h : step state s = some (next, rest)) (hlt : rest.length < s.length) :
    iterate step state s = iterate step next rest := by
  rw [iterate_eq, h]
  exact if_pos hlt

/-- There may be no value at all. -/
theorem many_of_none {p : Reader α} (h : p s = none) : many p s = some ([], s) := by
  unfold many
  rw [map_apply]
  unfold repeated
  rw [iterate_of_none]
  · rfl
  · rw [map_apply, h]
    rfl

/-- One value, after which there is no other. -/
theorem many_of_one {p : Reader α} {a : α} (h : p s = some (a, rest))
    (hlt : rest.length < s.length) (hend : p rest = none) : many p s = some ([a], rest) := by
  -- values are gathered in front of those before, so the first one makes a list of one
  have hfirst : ((fun b => [b]) <$> p) s = some ([a], rest) := by
    rw [map_apply, h]
    rfl
  unfold many
  rw [map_apply]
  unfold repeated
  rw [iterate_of_some hfirst hlt, iterate_of_none]
  · rfl
  · rw [map_apply, hend]
    rfl

/-- One value, after which there is no separator. -/
theorem sepBy1_of_one {p : Reader α} {sep : Reader Unit} {a : α} (h : p s = some (a, rest))
    (hend : sep rest = none) : sepBy1 p sep s = some ([a], rest) := by
  unfold sepBy1
  -- without a separator the repetition takes nothing after the first value
  rw [bind_of_some h, bind_of_some (many_of_none (bind_of_none hend _))]
  rfl

end Reader

open Reader

variable {s rest : List Char}

/-! ## Blanks, keys and strings -/

/-- Blanks may be missing. -/
theorem blanks_of_stops (h : Stops isBlank rest) : blanks rest = some ((), rest) := by
  unfold blanks
  rw [bind_of_some (takeWhile_of_stops h)]
  rfl

/-- One blank is taken where no other follows. -/
theorem blanks_space (h : Stops isBlank rest) : blanks (' ' :: rest) = some ((), rest) := by
  have htake : takeWhile isBlank (' ' :: rest) = some ([' '], rest) :=
    takeWhile_append [' '] (by simp [isBlank]) h
  unfold blanks
  rw [bind_of_some htake]
  rfl

/-- A string between double quotes is read by its quote, and nothing else is. -/
theorem basicString_of_ne {c : Char} (h : c ≠ '"') (rest : List Char) :
    basicString (c :: rest) = none := by
  unfold basicString
  exact bind_of_none (char_of_ne h _) _

/-- So is one between single quotes. -/
theorem literalString_of_ne {c : Char} (h : c ≠ '\'') (rest : List Char) :
    literalString (c :: rest) = none := by
  unfold literalString
  exact bind_of_none (char_of_ne h _) _

/-- A character that is in a class, unlike another. -/
theorem ne_of_class {p : Char → Bool} {c d : Char} (h : p c = true) (hd : p d = false) : c ≠ d := by
  rintro rfl
  rw [h] at hd
  exact nomatch hd

/-- A character in a class without blanks. -/
theorem isBlank_of_class {p : Char → Bool} {c : Char} (h : p c = true) (hspace : p ' ' = false)
    (htab : p '\t' = false) : isBlank c = false := by
  simp [isBlank, ne_of_class h hspace, ne_of_class h htab]

/-- A key without quotes, with a blank after it. -/
theorem keyPart_append {name : List Char} (hne : name ≠ [])
    (hname : ∀ c ∈ name, isBareKeyChar c = true) (h : Stops isBlank rest) :
    keyPart (name ++ ' ' :: rest) = some (String.ofList name, rest) := by
  -- the name is taken as a run, which the blank after it stops
  have hbare : bareKey (name ++ ' ' :: rest) = some (String.ofList name, ' ' :: rest) := by
    unfold bareKey
    rw [map_apply, takeWhile1_append hne hname (.cons (by decide) rest)]
    rfl
  -- its first character is neither a blank nor a quote, so nothing else is read here
  obtain ⟨c, cs, rfl⟩ := List.exists_cons_of_ne_nil hne
  have hc := hname c List.mem_cons_self
  have hstart : Stops isBlank (c :: cs ++ ' ' :: rest) :=
    .cons (isBlank_of_class hc (by decide) (by decide)) _
  have hpart : (basicString <|> literalString <|> bareKey) (c :: cs ++ ' ' :: rest) =
      some (String.ofList (c :: cs), ' ' :: rest) := by
    rw [List.cons_append, orElse_of_none (basicString_of_ne (ne_of_class hc (by decide)) _),
      orElse_of_none (literalString_of_ne (ne_of_class hc (by decide)) _)]
    exact hbare
  unfold keyPart
  rw [bind_of_some (blanks_of_stops hstart), bind_of_some hpart,
    bind_of_some (blanks_space h)]
  rfl

/-- A key of one part, up to the sign that separates it from its value. -/
theorem key_append {name : List Char} (hne : name ≠ [])
    (hname : ∀ c ∈ name, isBareKeyChar c = true) (rest : List Char) :
    key (name ++ ' ' :: '=' :: rest) = some ([String.ofList name], '=' :: rest) := by
  unfold key
  have hpart : keyPart (name ++ ' ' :: '=' :: rest) = some (String.ofList name, '=' :: rest) :=
    keyPart_append hne hname (.cons (by decide) rest)
  rw [bind_of_some (sepBy1_of_one hpart (char_of_ne (by decide) rest))]
  rfl

/-! ## Values -/

/-- Nothing but a quote starts a string. -/
theorem string_of_ne {c : Char} (hdouble : c ≠ '"') (hsingle : c ≠ '\'') (rest : List Char) :
    string (c :: rest) = none := by
  -- strings of several lines start with three quotes, those of one line with one
  have hmulti : ∀ {quote : Char} (part : Reader (List Char)), c ≠ quote →
      multiLineString quote part (c :: rest) = none := by
    intro quote part hne
    unfold multiLineString
    exact bind_of_none (exact_of_ne hne _ _) _
  unfold string multiLineBasicString multiLineLiteralString
  rw [orElse_of_none (hmulti _ hdouble), orElse_of_none (basicString_of_ne hdouble rest),
    orElse_of_none (hmulti _ hsingle), literalString_of_ne hsingle rest]

/-- What does not start with a bracket is neither an array nor a table. -/
theorem value_of_ne {c : Char} (hbracket : c ≠ '[') (hbrace : c ≠ '\x7b') (rest : List Char)
    (depth : Nat) : value depth (c :: rest) = scalar (c :: rest) := by
  cases depth with
  | zero => rfl
  | succ depth =>
    have harray : array (value depth) (c :: rest) = none := by
      unfold array
      exact bind_of_none (char_of_ne hbracket _) _
    have htable : inlineTable (value depth) (c :: rest) = none := by
      unfold inlineTable
      exact bind_of_none (char_of_ne hbrace _) _
    unfold value
    rw [orElse_of_none harray, orElse_of_none htable]

/-- A lexeme that is not a date, up to the end of the line. -/
theorem value_of_lexeme {text : List Char} (hne : text ≠ [])
    (htext : ∀ c ∈ text, isLexemeChar c = true) (hdate : isDate text = false) {item : Item}
    (hitem : Item.ofLexeme? text = some item) (rest : List Char) (depth : Nat) :
    value depth (text ++ '\n' :: rest) = some (item, '\n' :: rest) := by
  have hlexeme : lexeme (text ++ '\n' :: rest) = some (text, '\n' :: rest) :=
    takeWhile1_append hne htext (.cons (by decide) rest)
  -- its first character starts neither a string nor an array nor a table
  obtain ⟨c, cs, rfl⟩ := List.exists_cons_of_ne_nil hne
  have hc := htext c List.mem_cons_self
  have hstring : (Item.text <$> string) (c :: (cs ++ '\n' :: rest)) = none := by
    rw [map_apply, string_of_ne (ne_of_class hc (by decide)) (ne_of_class hc (by decide))]
    rfl
  rw [List.cons_append,
    value_of_ne (ne_of_class hc (by decide)) (ne_of_class hc (by decide))]
  rw [List.cons_append] at hlexeme
  unfold scalar
  rw [orElse_of_none hstring, bind_of_some hlexeme, hdate]
  show (Item.ofLexeme? (c :: cs)).map _ = _
  rw [hitem]
  rfl

/-- A string between double quotes whose characters all stand for themselves. -/
theorem value_quoted {text : List Char} (hne : text ≠ [])
    (htext : ∀ c ∈ text, isBasicChar c = true) (rest : List Char) (depth : Nat) :
    value depth ('"' :: (text ++ '"' :: rest)) = some (.text (String.ofList text), rest) := by
  have hrun : takeWhile1 isBasicChar (text ++ '"' :: rest) = some (text, '"' :: rest) :=
    takeWhile1_append hne htext (.cons (by decide) rest)
  -- the run ends at the closing quote, which is no escape and starts no second run
  have hescape : escape ('"' :: rest) = none := by
    unfold escape
    exact bind_of_none (char_of_ne (by decide) _) _
  have hparts : many (takeWhile1 isBasicChar <|> (List.singleton <$> escape)) (text ++ '"' :: rest) =
      some ([text], '"' :: rest) := by
    refine many_of_one (orElse_of_some hrun _) ?_ ?_
    · have := List.length_pos_iff.2 hne
      simp only [List.length_append]
      omega
    · rw [orElse_of_none (takeWhile1_of_stops (.cons (by decide) rest)), map_apply, hescape]
      rfl
  have hbasic : basicString ('"' :: (text ++ '"' :: rest)) = some (String.ofList text, rest) := by
    unfold basicString
    rw [bind_of_some (char_cons _ _), bind_of_some hparts, bind_of_some (char_cons _ _)]
    simp [pure_apply]
  -- the second character is no quote, so the text is not one of several lines
  have hmulti : multiLineBasicString ('"' :: (text ++ '"' :: rest)) = none := by
    obtain ⟨c, cs, rfl⟩ := List.exists_cons_of_ne_nil hne
    have hc := htext c List.mem_cons_self
    have hquotes : exact ['"', '"', '"'] ('"' :: (c :: cs ++ '"' :: rest)) = none := by
      show (char '"' >>= fun _ => exact ['"', '"']) _ = none
      rw [bind_of_some (char_cons _ _), List.cons_append,
        exact_of_ne (ne_of_class hc (by decide))]
    unfold multiLineBasicString multiLineString
    exact bind_of_none hquotes _
  rw [value_of_ne (by decide) (by decide)]
  unfold scalar
  refine orElse_of_some ?_ _
  rw [map_apply]
  unfold string
  rw [orElse_of_none hmulti, orElse_of_some hbasic]
  rfl

/-! ## Lines -/

/-- A line with nothing after its value. -/
theorem trailing_newline (rest : List Char) : trailing ('\n' :: rest) = some ((), rest) := by
  have hcomment : comment ('\n' :: rest) = none := by
    unfold comment
    exact bind_of_none (char_of_ne (by decide) _) _
  have hnewline : newline ('\n' :: rest) = some ((), rest) := orElse_of_some (char_cons _ rest) _
  unfold trailing
  rw [bind_of_some (blanks_of_stops (.cons (by decide) rest)),
    bind_of_some (optional?_of_none hcomment)]
  exact orElse_of_some hnewline _

/-- A line that starts as a key without quotes does is a line `key = value`. -/
theorem line_of_bareKeyChar {c : Char} (hc : isBareKeyChar c = true) (draft : Draft)
    (cs : List Char) : line draft (c :: cs) =
      (keyValueLine draft >>= fun next => do blanks; return next) (c :: cs) := by
  -- a character of a key starts no line end, no comment and no header
  have hempty : emptyLine draft (c :: cs) = none := by
    have hnewline : newline (c :: cs) = none := by
      unfold newline
      rw [orElse_of_none (char_of_ne (ne_of_class hc (by decide)) cs)]
      exact exact_of_ne (ne_of_class hc (by decide)) _ _
    unfold emptyLine
    refine bind_of_none ?_ _
    rw [orElse_of_none hnewline]
    unfold comment
    exact bind_of_none (bind_of_none (char_of_ne (ne_of_class hc (by decide)) _) _) _
  have helement : elementLine draft (c :: cs) = none := by
    unfold elementLine
    exact bind_of_none (exact_of_ne (ne_of_class hc (by decide)) _ _) _
  have htable : tableLine draft (c :: cs) = none := by
    unfold tableLine
    exact bind_of_none (char_of_ne (ne_of_class hc (by decide)) _) _
  unfold line
  rw [bind_apply, bind_apply, orElse_of_none hempty, orElse_of_none helement,
    orElse_of_none htable]

/-- A line `key = value`, whose value is read as far as the end of the line, before a line that does
not start with a blank. -/
theorem line_append {draft next : Draft} {name shown : List Char} {item : Item} (hne : name ≠ [])
    (hname : ∀ c ∈ name, isBareKeyChar c = true)
    (hshown : Stops isBlank (shown ++ '\n' :: rest))
    (hvalue : value (nestingLimit - 1) (shown ++ '\n' :: rest) = some (item, '\n' :: rest))
    (hnext : draft.insertKey? [] (String.ofList name) item = some next)
    (hrest : Stops isBlank rest) :
    line draft (name ++ ' ' :: '=' :: ' ' :: (shown ++ '\n' :: rest)) = some (next, rest) := by
  -- the parts of the line in turn: key, sign, blank, value, line end
  have hpair : keyValueLine draft (name ++ ' ' :: '=' :: ' ' :: (shown ++ '\n' :: rest)) =
      some (next, rest) := by
    unfold keyValueLine
    rw [bind_of_some (key_append hne hname _)]
    show (char '=' >>= fun _ => _) _ = _
    rw [bind_of_some (char_cons _ _), bind_of_some (blanks_space hshown),
      bind_of_some hvalue, bind_of_some (trailing_newline _)]
    show (draft.insertKey? [] (String.ofList name) item).map _ = _
    rw [hnext]
    rfl
  -- only this kind of line starts with a character of a key
  obtain ⟨c, cs, rfl⟩ := List.exists_cons_of_ne_nil hne
  rw [List.cons_append] at hpair ⊢
  rw [line_of_bareKeyChar (hname c List.mem_cons_self), bind_of_some hpair,
    bind_of_some (blanks_of_stops hrest)]
  rfl

/-- There is no line after the end. -/
theorem line_nil (draft : Draft) : line draft [] = none := rfl

end ComboTree.Toml
