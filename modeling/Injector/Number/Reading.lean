import Injector.Number.Binary64

/-!
# Numbers in texts

`readInteger` reads a 64-bit signed integer: an optional sign and decimal digits. It goes digit by
digit and stops at the first one that leaves the range, so that a text with two faults is blamed for
the earlier one. `readFloat` reads a decimal fraction with an optional exponent, or one of the names
of infinity and NaN in any case of letters.
-/

namespace Injector.Number

/-! ## Integers -/

/-- Why a text is no 64-bit signed integer. -/
inductive IntegerFault
  | empty
  | invalidDigit
  | tooLarge
  | tooSmall
  deriving DecidableEq

/-- The wording of a fault. -/
def IntegerFault.message : IntegerFault → String
  | .empty => "cannot parse integer from empty string"
  | .invalidDigit => "invalid digit found in string"
  | .tooLarge => "number too large to fit in target type"
  | .tooSmall => "number too small to fit in target type"

/-- The least 64-bit signed integer. -/
def least : Int := -9223372036854775808

/-- The greatest 64-bit signed integer. -/
def greatest : Int := 9223372036854775807

/-- The value of an ASCII decimal digit. -/
def digit? (c : Char) : Option Nat :=
  if c.isDigit then some (c.toNat - '0'.toNat) else none

/-- Continues a number with the digits of a text, away from zero on the side of its sign. -/
def accumulate (negative : Bool) : Int → List Char → Except IntegerFault Int
  | value, [] => .ok value
  | value, c :: rest =>
    match digit? c with
    | none => .error .invalidDigit
    | some d =>
      let next := if negative then 10 * value - d else 10 * value + d
      if next < least then .error .tooSmall
      else if greatest < next then .error .tooLarge
      else accumulate negative next rest

/-- Reads digits, of which there has to be one. -/
def readDigits (negative : Bool) (digits : List Char) : Except IntegerFault Int :=
  if digits = [] then .error .invalidDigit else accumulate negative 0 digits

/-- Reads a 64-bit signed integer. -/
def readInteger : List Char → Except IntegerFault Int
  | [] => .error .empty
  | '+' :: digits => readDigits false digits
  | '-' :: digits => readDigits true digits
  | digits => readDigits false digits

/-- The decimal digits of an integer, after a minus sign if it is negative. -/
def integerText (n : Int) : String :=
  let digits := Nat.toDigits 10 n.natAbs
  String.ofList (if n < 0 then '-' :: digits else digits)

/-! ## Floating-point numbers -/

/-- Why a text is no floating-point number. -/
inductive FloatFault
  | empty
  | invalid
  deriving DecidableEq

/-- The wording of a fault. -/
def FloatFault.message : FloatFault → String
  | .empty => "cannot parse float from empty string"
  | .invalid => "invalid float literal"

/-- The natural that decimal digits write; other characters count as zero. -/
def digitsValue (digits : List Char) : Nat :=
  digits.foldl (fun value c => 10 * value + (digit? c).getD 0) 0

/-- The exponent after the letter `e`: an optional sign and at least one digit. -/
def exponent? : List Char → Option Int
  | '+' :: digits => natural digits
  | '-' :: digits => (natural digits).map (- ·)
  | digits => natural digits
where
  natural (digits : List Char) : Option Int :=
    if digits ≠ [] ∧ digits.all Char.isDigit then some (digitsValue digits) else none

/-- The names of the values that are not finite. -/
def special? (negative : Bool) (text : List Char) : Option Binary64 :=
  let name := String.ofList (text.map Char.toLower)
  if name = "inf" ∨ name = "infinity" then some (.infinity negative)
  else if name = "nan" then some (.nan negative)
  else none

/-- A decimal fraction: digits, of which there has to be one on some side of the point, and an
optional exponent. -/
def decimal? (negative : Bool) (text : List Char) : Option Binary64 :=
  let whole := text.takeWhile Char.isDigit
  let afterWhole := text.dropWhile Char.isDigit
  let (fraction, afterFraction) :=
    match afterWhole with
    | '.' :: rest => (rest.takeWhile Char.isDigit, rest.dropWhile Char.isDigit)
    | rest => ([], rest)
  let digits := whole ++ fraction
  let exponent :=
    match afterFraction with
    | [] => some 0
    | c :: rest => if c = 'e' ∨ c = 'E' then exponent? rest else none
  if digits = [] then none
  else
    exponent.map fun e =>
      let coefficient := digitsValue digits
      .ofDecimal negative coefficient (Binary64.digitCount coefficient) (e - fraction.length)

/-- Reads a floating-point number without its sign. -/
def readMagnitude (negative : Bool) (text : List Char) : Except FloatFault Binary64 :=
  match (decimal? negative text).orElse fun _ => special? negative text with
  | some x => .ok x
  | none => .error .invalid

/-- Reads a floating-point number, correctly rounded. -/
def readFloat : List Char → Except FloatFault Binary64
  | [] => .error .empty
  | '+' :: text => readMagnitude false text
  | '-' :: text => readMagnitude true text
  | text => readMagnitude false text

end Injector.Number
