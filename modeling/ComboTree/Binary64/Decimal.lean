import ComboTree.Binary64.Basic

/-!
# Reading a binary64 number from text

A number is an optional sign and digits with an optional point among, before or after them, at
least one digit in all, then an optional exponent; or an optional sign and `inf`, `infinity` or
`nan` in any case.  Nothing else is a number, and no blanks are skipped.
-/

namespace ComboTree.Binary64

/-- The value of a run of decimal digits. -/
def ofDigits (digits : List Char) : Nat :=
  digits.foldl (fun n c => 10 * n + (c.toNat - '0'.toNat)) 0

/-- The sign in front of `text`, a minus counting as `true`, and what follows it. -/
def splitSign : List Char → Bool × List Char
  | '-' :: rest => (true, rest)
  | '+' :: rest => (false, rest)
  | text => (false, text)

/-- The longest run of digits at the start of `text`, and what follows it. -/
def spanDigits (text : List Char) : List Char × List Char :=
  text.span Char.isDigit

/-- The integer written as an optional sign and at least one digit. -/
def integer? (text : List Char) : Option Int :=
  let (negative, digits) := splitSign text
  if digits ≠ [] ∧ digits.all Char.isDigit then
    some (if negative then -(ofDigits digits : Int) else ofDigits digits)
  else
    none

/-- The power of ten that an exponent part states; an empty text states none. -/
def exponent? : List Char → Option Int
  | [] => some 0
  | c :: rest => if c = 'e' ∨ c = 'E' then integer? rest else none

/-- The number that `text` stands for. -/
def ofText? (text : String) : Option Binary64 :=
  let (negative, unsigned) := splitSign text.toList
  let word := String.ofList (unsigned.map Char.toLower)
  if word = "nan" then
    some nan
  else if word = "inf" ∨ word = "infinity" then
    some (infinite negative)
  else
    let (whole, rest) := spanDigits unsigned
    let (fraction, rest) := match rest with
      | '.' :: rest => spanDigits rest
      | rest => ([], rest)
    if whole = [] ∧ fraction = [] then
      none
    else
      (exponent? rest).map fun power =>
        ofDecimal negative (ofDigits (whole ++ fraction)) (power - fraction.length)

end ComboTree.Binary64
