/-!
# Readers of text

A `Reader` takes a value off the front of a text or fails.  `p <|> q` tries `q` where `p` fails.
Repetition ends when a step fails or takes nothing, so every reader built here is total.

* `iterate_eq`  one step of a repetition
-/

namespace ComboTree.Toml

/-- Takes a value off the front of a text, or fails. -/
abbrev Reader (α : Type) := StateT (List Char) Option α

namespace Reader

variable {α σ : Type}

/-- The next character, which stays where it is; none at the end. -/
def peek? : Reader (Option Char) := fun s => some (s.head?, s)

/-- One character that satisfies `p`. -/
def satisfy (p : Char → Bool) : Reader Char
  | [] => none
  | c :: rest => if p c then some (c, rest) else none

/-- The character `c`. -/
def char (c : Char) : Reader Unit := do
  let _ ← satisfy (· = c)

/-- Exactly these characters. -/
def exact (expected : List Char) : Reader Unit := expected.forM char

/-- The longest run of characters that satisfy `p`, which may be empty. -/
def takeWhile (p : Char → Bool) : Reader (List Char) := fun s => some (s.span p)

/-- The longest run of characters that satisfy `p`, at least one. -/
def takeWhile1 (p : Char → Bool) : Reader (List Char) := do
  let run ← takeWhile p
  if run = [] then failure else return run

/-- The end of the text. -/
def atEnd : Reader Unit := fun s => if s = [] then some ((), s) else none

/-- What `p` takes, if it takes anything. -/
def optional? (p : Reader α) : Reader (Option α) := some <$> p <|> return none

/-- The value of `x`, without taking anything. -/
def ofOption (x : Option α) : Reader α := fun s => x.map (·, s)

/-- The state after as many steps as succeed, and what is left of the text.  A step that takes
nothing is the last one. -/
def iterate (step : σ → Reader σ) (state : σ) (s : List Char) : σ × List Char :=
  match step state s with
  | none => (state, s)
  | some (next, rest) =>
    if rest.length < s.length then iterate step next rest else (next, rest)
termination_by s.length

/-- One step of a repetition. -/
theorem iterate_eq (step : σ → Reader σ) (state : σ) (s : List Char) :
    iterate step state s =
      match step state s with
      | none => (state, s)
      | some (next, rest) =>
        if rest.length < s.length then iterate step next rest else (next, rest) := by
  rw [iterate]

/-- As many steps as succeed, from `state`. -/
def repeated (step : σ → Reader σ) (state : σ) : Reader σ := fun s => some (iterate step state s)

/-- As many values as `p` takes, in order. -/
def many (p : Reader α) : Reader (List α) :=
  List.reverse <$> repeated (fun taken => (· :: taken) <$> p) []

/-- Values with `sep` between neighbours, at least one. -/
def sepBy1 (p : Reader α) (sep : Reader Unit) : Reader (List α) := do
  let first ← p
  let others ← many (do sep; p)
  return first :: others

/-- Values with `sep` between neighbours, possibly none. -/
def sepBy (p : Reader α) (sep : Reader Unit) : Reader (List α) :=
  sepBy1 p sep <|> return []

/-- The value that `p` takes if it takes the whole text. -/
def readAll? (p : Reader α) (text : String) : Option α := do
  let (value, _) ← (do let value ← p; atEnd; return value : Reader α) text.toList
  return value

end Reader

end ComboTree.Toml
