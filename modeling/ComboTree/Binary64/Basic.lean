/-!
# Binary64 numbers, exactly

A finite number is a sign and `significand * 2 ^ exponent` with a significand of at most 53 bits.
All arithmetic is on `Nat` and `Int`; nothing is rounded but by `roundToEven`.

* `roundToEven`  the whole number nearest to a fraction, ties to the even one
* `Binary64.ofRatio`  the number nearest to a fraction, ties to the even significand
* `Binary64.roundedInt`  the nearest integer, halves away from zero, held to a range
-/

namespace ComboTree

/-- The natural number nearest to `num / den`; a half goes to the even neighbour. -/
def roundToEven (num den : Nat) : Nat :=
  let q := num / den
  let twice := 2 * (num % den)
  if twice < den then q else if den < twice then q + 1 else q + q % 2

/-- A binary64 number. -/
inductive Binary64 where
  | finite (negative : Bool) (significand : Nat) (exponent : Int)
  | infinite (negative : Bool)
  | nan
deriving DecidableEq, Repr, Inhabited

namespace Binary64

/-- A normal significand has this many bits. -/
def precision : Nat := 53

/-- The exponent of the numbers closest to zero. -/
def leastExponent : Int := -1074

/-- The exponent of the numbers farthest from zero. -/
def greatestExponent : Int := 971

/-- `num * 2 ^ e / den` as a fraction of natural numbers. -/
def scaled (num den : Nat) (e : Int) : Nat × Nat :=
  (num <<< e.toNat, den <<< (-e).toNat)

/-- The exponent at which `num / den` has a significand of `precision` bits, or the least one. -/
def exponentOf (num den : Nat) : Int :=
  let high := (num.log2 : Int) - den.log2 - (precision - 1)
  let (n, d) := scaled num den (-high)
  max leastExponent (if n / d < 1 <<< (precision - 1) then high - 1 else high)

/-- The number nearest to `num / den` with the given sign, for a positive `den`. -/
def ofRatio (negative : Bool) (num den : Nat) : Binary64 :=
  if num = 0 then
    finite negative 0 leastExponent
  else
    let e := exponentOf num den
    let (n, d) := scaled num den (-e)
    let m := roundToEven n d
    -- Rounding up may need one bit more, which is then the only one set.
    let (m, e) := if m = 1 <<< precision then (1 <<< (precision - 1), e + 1) else (m, e)
    if greatestExponent < e then infinite negative else finite negative m e

/-- The number nearest to `digits * 10 ^ power`.  Powers that are out of reach of every finite
number, on either side, are settled without being computed. -/
def ofDecimal (negative : Bool) (digits : Nat) (power : Int) : Binary64 :=
  let length : Int := (Nat.toDigits 10 digits).length
  if digits = 0 ∨ length + power < -400 then
    finite negative 0 leastExponent
  else if 400 < length + power then
    infinite negative
  else
    ofRatio negative (digits * Nat.pow 10 power.toNat) (Nat.pow 10 (-power).toNat)

/-- Whether a number differs from both zeros; NaN does. -/
def isNonzero : Binary64 → Bool
  | finite _ m _ => m ≠ 0
  | infinite _ | nan => true

/-- The nearest integer, a half going away from zero, and the nearer end of `least` to `greatest`
for a number outside them; NaN counts as zero. -/
def roundedInt (least greatest : Int) : Binary64 → Int
  | finite negative m e =>
    let (n, d) := scaled m 1 e
    let magnitude : Int := ((2 * n + d) / (2 * d) : Nat)
    max least (min greatest (if negative then -magnitude else magnitude))
  | infinite negative => if negative then least else greatest
  | nan => 0

end Binary64

end ComboTree
