import ComboTree.Binary64.Decimal

/-!
# Numbers, truth values, dates and times of TOML

What is written without quotes or brackets is one lexeme, and these functions say what a lexeme
stands for.  Digits of a number may be grouped by single underscores; a number in decimal has no
needless leading zero; an integer fits into 64 bits with its sign.
-/

namespace ComboTree.Toml

open Binary64 (splitSign ofDigits ofDecimal)

/-- The digits of a number whose digits may be grouped by single underscores. -/
def ungrouped? (isDigit : Char → Bool) (text : List Char) : Option (List Char) :=
  let groups := text.splitOn '_'
  if groups.all fun g => !g.isEmpty && g.all isDigit then some groups.flatten else none

/-- The digits of a whole number in decimal, without a sign. -/
def wholeDigits? (text : List Char) : Option (List Char) := do
  let digits ← ungrouped? Char.isDigit text
  if digits.head? = some '0' ∧ digits ≠ ['0'] then none else some digits

/-! ## Integers -/

/-- The integer itself, if 64 bits can hold it. -/
def inRange? (n : Int) : Option Int :=
  if Int64.minValue.toInt ≤ n ∧ n ≤ Int64.maxValue.toInt then some n else none

/-- The value of a digit to a base up to 16, letters in either case. -/
def digitValue? (base : Nat) (c : Char) : Option Nat :=
  let value :=
    if c.isDigit then c.toNat - '0'.toNat
    else if 'a' ≤ c.toLower ∧ c.toLower ≤ 'f' then c.toLower.toNat - 'a'.toNat + 10
    else base
  if value < base then some value else none

/-- The value of a run of digits to the given base. -/
def ofDigitsInBase (base : Nat) (digits : List Char) : Nat :=
  digits.foldl (fun n c => base * n + (digitValue? base c).getD 0) 0

/-- The value of grouped digits to the given base. -/
def inBase? (base : Nat) (text : List Char) : Option Int := do
  let digits ← ungrouped? (fun c => (digitValue? base c).isSome) text
  inRange? (ofDigitsInBase base digits)

/-- The integer that a lexeme stands for. -/
def integer? : List Char → Option Int
  | '0' :: 'x' :: text => inBase? 16 text
  | '0' :: 'o' :: text => inBase? 8 text
  | '0' :: 'b' :: text => inBase? 2 text
  | text => do
    let (negative, unsigned) := splitSign text
    let digits ← wholeDigits? unsigned
    inRange? (if negative then -(ofDigits digits : Int) else ofDigits digits)

/-! ## Other numbers -/

/-- The power of ten that an exponent part states; an empty text states none. -/
def power? : List Char → Option Int
  | [] => some 0
  | c :: text =>
    if c = 'e' ∨ c = 'E' then do
      let (negative, unsigned) := splitSign text
      let digits ← ungrouped? Char.isDigit unsigned
      return if negative then -(ofDigits digits : Int) else ofDigits digits
    else
      none

/-- The number that a lexeme with a fraction or an exponent stands for.  A positive number that is
too large for any finite one is refused. -/
def float? (text : List Char) : Option Binary64 := do
  let (negative, unsigned) := splitSign text
  let (whole, rest) := unsigned.span fun c => c.isDigit || c = '_'
  let digits ← wholeDigits? whole
  let (fraction, rest) ← match rest with
    | '.' :: rest =>
      let (fraction, rest) := rest.span fun c => c.isDigit || c = '_'
      (ungrouped? Char.isDigit fraction).map (·, rest)
    | [] => none
    | rest => some ([], rest)
  let power ← power? rest
  let number := ofDecimal negative (ofDigits (digits ++ fraction)) (power - fraction.length)
  if number = .infinite false then none else some number

/-- Infinity or NaN by name. -/
def namedFloat? (text : List Char) : Option Binary64 :=
  match splitSign text with
  | (negative, ['i', 'n', 'f']) => some (.infinite negative)
  | (_, ['n', 'a', 'n']) => some .nan
  | _ => none

/-- The truth value that a lexeme names. -/
def boolean? : List Char → Option Bool
  | ['t', 'r', 'u', 'e'] => some true
  | ['f', 'a', 'l', 's', 'e'] => some false
  | _ => none

/-! ## Dates and times -/

/-- The value of a fixed number of decimal digits. -/
def fixedDigits? (digits : List Char) : Option Nat :=
  if digits.all Char.isDigit then some (ofDigits digits) else none

/-- Whether two characters are the digits of a number from `least` to `greatest`. -/
def isPairWithin (least greatest : Nat) (a b : Char) : Bool :=
  (fixedDigits? [a, b]).any fun n => least ≤ n && n ≤ greatest

/-- The number of days of a month. -/
def daysIn (year month : Nat) : Nat :=
  if month = 2 then
    if year % 4 = 0 ∧ (year % 100 ≠ 0 ∨ year % 400 = 0) then 29 else 28
  else if month ∈ [4, 6, 9, 11] then 30
  else 31

/-- Whether a text is a calendar date, `1979-05-27`. -/
def isDate : List Char → Bool
  | [y₁, y₂, y₃, y₄, '-', m₁, m₂, '-', d₁, d₂] =>
    match fixedDigits? [y₁, y₂, y₃, y₄], fixedDigits? [m₁, m₂] with
    | some year, some month =>
      1 ≤ month && month ≤ 12 && isPairWithin 1 (daysIn year month) d₁ d₂
    | _, _ => false
  | _ => false

/-- Whether a text is a distance from universal time, `Z` or `+01:00`. -/
def isOffset : List Char → Bool
  | [c] => c = 'Z' || c = 'z'
  | [sign, h₁, h₂, ':', m₁, m₂] =>
    (sign = '+' || sign = '-') && isPairWithin 0 23 h₁ h₂ && isPairWithin 0 59 m₁ m₂
  | _ => false

/-- Whether a text is a time of day, `07:32:00` or `07:32:00.25`, followed by `suffix`. -/
def isTimeThen (suffix : List Char → Bool) : List Char → Bool
  | h₁ :: h₂ :: ':' :: m₁ :: m₂ :: ':' :: s₁ :: s₂ :: rest =>
    isPairWithin 0 23 h₁ h₂ && isPairWithin 0 59 m₁ m₂ && isPairWithin 0 60 s₁ s₂ &&
      match rest with
      | '.' :: rest =>
        let (digits, rest) := rest.span Char.isDigit
        !digits.isEmpty && suffix rest
      | rest => suffix rest
  | _ => false

/-- Whether a text is a time of day and nothing else. -/
def isLocalTime (text : List Char) : Bool := isTimeThen List.isEmpty text

/-- Whether a text is a time of day, possibly with a distance from universal time. -/
def isTime (text : List Char) : Bool := isTimeThen (fun rest => rest.isEmpty || isOffset rest) text

/-- Whether a lexeme is a date, a time, or both with a `T` between them. -/
def isDateOrTime (text : List Char) : Bool :=
  isDate text || isLocalTime text ||
    match text.splitAt 10 with
    | (date, c :: time) => isDate date && (c = 'T' || c = 't') && isTime time
    | _ => false

end ComboTree.Toml
