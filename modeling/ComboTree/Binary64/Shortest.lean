import ComboTree.Binary64.Basic

/-!
# Writing a binary64 number with the fewest digits

`shortest` finds the decimal with the fewest digits among those that read back as the number, and
of those the nearest to it.  `toText` writes it positionally, without an exponent and without a
fraction when there is none.

The decimals that read back are those between the two halfway points to the neighbouring numbers,
the halfway points included when the significand is even.
-/

namespace ComboTree.Binary64

/-- The decimals that read back as one number: `low / den` to `high / den` about `mid / den`. -/
structure Interval where
  low : Nat
  mid : Nat
  high : Nat
  den : Nat
  closed : Bool

/-- The interval of `significand * 2 ^ exponent`.  Below a power of two the neighbour is half as
far away as above it. -/
def interval (significand : Nat) (exponent : Int) : Interval :=
  let (n, den) := scaled 1 4 exponent
  let below := if significand = 1 <<< (precision - 1) ∧ leastExponent < exponent then 1 else 2
  { low := (4 * significand - below) * n
    mid := 4 * significand * n
    high := (4 * significand + 2) * n
    den
    closed := significand % 2 = 0 }

/-- Whether `num / den` lies in the interval. -/
def Interval.holds (i : Interval) (num den : Nat) : Bool :=
  let (low, x, high) := (i.low * den, num * i.den, i.high * den)
  if i.closed then low ≤ x ∧ x ≤ high else low < x ∧ x < high

/-- The multiple of `10 ^ power` nearest to the middle that the interval holds, if one of the two
around the middle is held; halfway between them the greater one. -/
def Interval.onGrid? (i : Interval) (power : Int) : Option Nat :=
  let (unit, den) := (Nat.pow 10 power.toNat, Nat.pow 10 (-power).toNat)
  let num := i.mid * den
  let step := unit * i.den
  let down := num / step
  let nearerUp := step ≤ 2 * (num % step)
  let candidates := if nearerUp then [down + 1, down] else [down, down + 1]
  candidates.find? fun c => i.holds (c * unit) den

/-- The decimal place of the first digit of a positive `num / den`. -/
def leadingPlace (num den : Nat) : Int :=
  let estimate : Int := ((Nat.toDigits 10 num).length : Int) - (Nat.toDigits 10 den).length
  let (unit, unitDen) := (Nat.pow 10 estimate.toNat, Nat.pow 10 (-estimate).toNat)
  if den * unit ≤ num * unitDen then estimate else estimate - 1

/-- The digits and the power of ten of the shortest decimal of a positive number.  The search
starts one place before the first digit, since the decimal may be a power of ten just above the
number; seventeen digits always suffice. -/
def shortest (significand : Nat) (exponent : Int) : Nat × Int :=
  let i := interval significand exponent
  let start := leadingPlace i.mid i.den + 1
  let found := (List.range 18).findSome? fun (k : Nat) =>
    (i.onGrid? (start - k)).map fun digits => (digits, start - (k : Int))
  found.getD (0, 0)

/-- `digits * 10 ^ power` written positionally. -/
def positional (digits : Nat) (power : Int) : String :=
  let shown := Nat.toDigits 10 digits
  if 0 ≤ power then
    String.ofList (shown ++ List.replicate power.toNat '0')
  else
    let places := (-power).toNat
    let padded := List.replicate (places + 1 - shown.length) '0' ++ shown
    let (whole, fraction) := padded.splitAt (padded.length - places)
    String.ofList (whole ++ '.' :: fraction)

/-- The text of a number: the shortest decimal that reads back, without an exponent. -/
def toText : Binary64 → String
  | nan => "NaN"
  | infinite negative => if negative then "-inf" else "inf"
  | finite negative m e =>
    let (digits, power) := if m = 0 then (0, 0) else shortest m e
    (if negative then "-" else "") ++ positional digits power

end ComboTree.Binary64
