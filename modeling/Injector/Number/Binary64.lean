/-!
# 64-bit floating-point numbers

A `Binary64` is its 64-bit word in the IEEE 754 format, so that two numbers are equal only if they
agree bit by bit: a NaN equals itself and `0` differs from `-0`. No operation of the machine's
floating-point unit is used; rounding and printing are exact arithmetic on naturals.

A finite word stands for `significand * 2 ^ shift` units of `2 ^ (-1074)`.

* `ofRatio` rounds a quotient of naturals to the nearest number, a tie to the even significand.
* `shortest` finds the decimal with the fewest digits that rounds back to the number; of several,
  the nearest, and of two equally near ones the larger.
-/

namespace Injector

/-- A 64-bit floating-point number, as its word. -/
structure Binary64 where
  bits : UInt64
  deriving DecidableEq, Inhabited

namespace Binary64

/-! ## The fields of a word -/

/-- Whether the sign bit is set. -/
def isNegative (x : Binary64) : Bool :=
  Nat.pow 2 63 ≤ x.bits.toNat

/-- The eleven exponent bits. -/
def exponentField (x : Binary64) : Nat :=
  x.bits.toNat / Nat.pow 2 52 % Nat.pow 2 11

/-- The 52 fraction bits. -/
def fractionField (x : Binary64) : Nat :=
  x.bits.toNat % Nat.pow 2 52

/-- The significand of a finite number, with the hidden bit where there is one. -/
def significand (x : Binary64) : Nat :=
  if x.exponentField = 0 then x.fractionField else Nat.pow 2 52 + x.fractionField

/-- The power of two that the significand is multiplied with, counted from `2 ^ (-1074)`. -/
def shift (x : Binary64) : Nat :=
  x.exponentField - 1

/-- Whether the word stands for no number. -/
def isNaN (x : Binary64) : Bool :=
  x.exponentField = 2047 && x.fractionField ≠ 0

/-- Whether the word stands for an infinity. -/
def isInfinite (x : Binary64) : Bool :=
  x.exponentField = 2047 && x.fractionField = 0

/-- The word with the given sign and the given 63 bits below it. -/
def ofMagnitude (negative : Bool) (magnitude : Nat) : Binary64 :=
  ⟨UInt64.ofNat (if negative then Nat.pow 2 63 + magnitude else magnitude)⟩

/-- The 63 bits of infinity. -/
def infinityMagnitude : Nat :=
  2047 * Nat.pow 2 52

/-- Infinity with the given sign. -/
def infinity (negative : Bool) : Binary64 :=
  ofMagnitude negative infinityMagnitude

/-- The quiet NaN with the given sign. -/
def nan (negative : Bool) : Binary64 :=
  ofMagnitude negative (infinityMagnitude + Nat.pow 2 51)

/-! ## Rounding -/

/-- The natural nearest to a quotient, a tie to the even one. -/
def roundHalfEven (numerator denominator : Nat) : Nat :=
  let quotient := numerator / denominator
  let twice := 2 * (numerator % denominator)
  if twice < denominator then quotient
  else if denominator < twice then quotient + 1
  else quotient + quotient % 2

/-- The number nearest to a quotient; infinity if that exceeds the range.

The packed magnitude is `shift * 2 ^ 52 + significand`: where rounding carries the significand to
`2 ^ 53`, the sum is the next power of two by itself. -/
def ofRatio (negative : Bool) (numerator denominator : Nat) : Binary64 :=
  let units := numerator * Nat.pow 2 1074
  let shift := (units / denominator).log2 - 52
  let magnitude := shift * Nat.pow 2 52 + roundHalfEven units (denominator * Nat.pow 2 shift)
  ofMagnitude negative (min magnitude infinityMagnitude)

/-- The number nearest to an integer. -/
def ofInt (n : Int) : Binary64 :=
  ofRatio (n < 0) n.natAbs 1

/-- The number nearest to `coefficient * 10 ^ exponent`, for a coefficient of the given number of
decimal digits. Exponents far outside the range are settled without computing the power. -/
def ofDecimal (negative : Bool) (coefficient : Nat) (digitCount : Nat) (exponent : Int) : Binary64 :=
  if coefficient = 0 then ofMagnitude negative 0
  else if exponent + digitCount > 400 then infinity negative
  else if exponent + digitCount < -400 then ofMagnitude negative 0
  else if 0 ≤ exponent then ofRatio negative (coefficient * Nat.pow 10 exponent.toNat) 1
  else ofRatio negative coefficient (Nat.pow 10 (-exponent).toNat)

/-! ## The shortest decimal -/

/-- A decimal `digits * 10 ^ exponent`. -/
structure Decimal where
  digits : Nat
  exponent : Int

/-- How many decimal digits a natural has. -/
def digitCount (n : Nat) : Nat :=
  (Nat.toDigits 10 n).length

/-- The numbers that round to a positive finite number form an interval around it. It is given
with a common denominator, and scaled by `10 ^ 400` so that every decimal grid in use has whole
steps. -/
structure Neighbourhood where
  low : Nat
  value : Nat
  high : Nat
  denominator : Nat
  /-- Whether the two ends round to the number too. -/
  closed : Bool

/-- The neighbourhood of a positive finite number: half a unit of its last place to either side,
but only a quarter below a power of two, where the smaller numbers lie twice as close. -/
def neighbourhood (x : Binary64) : Neighbourhood :=
  let scale := Nat.pow 2 x.shift * Nat.pow 10 400
  let below := if x.significand = Nat.pow 2 52 ∧ 1 < x.exponentField then 1 else 2
  { low := (4 * x.significand - below) * scale
    value := 4 * x.significand * scale
    high := (4 * x.significand + 2) * scale
    denominator := Nat.pow 2 1076
    closed := x.significand % 2 = 0 }

/-- Whether a point, over the same denominator, rounds to the number. -/
def Neighbourhood.holds (n : Neighbourhood) (point : Nat) : Bool :=
  if n.closed then n.low ≤ point && point ≤ n.high else n.low < point && point < n.high

/-- The point of the grid with the given step that rounds to the number: one of its two
neighbours on the grid, the nearer one if both do, the upper one if both are equally near. -/
def Neighbourhood.onGrid? (n : Neighbourhood) (step : Nat) : Option Nat :=
  let lower := n.value / (n.denominator * step)
  let lowerPoint := lower * (n.denominator * step)
  let upperPoint := (lower + 1) * (n.denominator * step)
  match n.holds lowerPoint, n.holds upperPoint with
  | true, true => some (if n.value - lowerPoint < upperPoint - n.value then lower else lower + 1)
  | true, false => some lower
  | false, true => some (lower + 1)
  | false, false => none

/-- The decimal with the fewest digits that rounds to a positive finite number; seventeen digits
always suffice. -/
def shortest (x : Binary64) : Decimal :=
  let n := x.neighbourhood
  let places := digitCount (n.value / n.denominator)
  let hits := (List.range 17).filterMap fun k =>
    (n.onGrid? (Nat.pow 10 (places - (k + 1)))).map fun digits =>
      (⟨digits, (places : Int) - (k + 1) - 400⟩ : Decimal)
  hits.headD ⟨n.value / n.denominator, -400⟩

/-! ## Text -/

/-- Decimal digits without an exponent: zeros fill up to the point, none stand behind the last
digit that counts, and whole numbers have no point. -/
def positional (decimal : Decimal) : String :=
  let all := Nat.toDigits 10 decimal.digits
  let kept := (all.reverse.dropWhile (· = '0')).reverse
  let exponent := decimal.exponent + (all.length - kept.length : Nat)
  let point := (kept.length : Int) + exponent
  if 0 ≤ exponent then String.ofList (kept ++ List.replicate exponent.toNat '0')
  else if 0 < point then
    String.ofList (kept.take point.toNat ++ '.' :: kept.drop point.toNat)
  else String.ofList ('0' :: '.' :: List.replicate (-point).toNat '0' ++ kept)

/-- The text of a number: the shortest decimal that reads back, written positionally. -/
def toText (x : Binary64) : String :=
  if x.isNaN then "NaN"
  else
    let magnitude :=
      if x.isInfinite then "inf" else if x.significand = 0 then "0" else positional x.shortest
    if x.isNegative then "-" ++ magnitude else magnitude

end Binary64

end Injector
