import Injector.Number.Reading
import Injector.Toml.Document

/-!
# Scalars of TOML

Everything that is written without quotes and brackets: booleans, numbers, dates and times. The reader of
the built-in library first takes the longest run of characters that such a word may have (`isWordChar`)
and then asks here what the word says. Underscores may stand between digits; numbers in base ten have no
leading zeros.
-/

namespace Injector.Toml

/-- Whether a word without quotes may have the character. -/
def isWordChar (c : Char) : Bool :=
  c.isAlphanum || c = '+' || c = '-' || c = '_' || c = '.' || c = ':'

/-! ## Numbers -/

/-- The digits of a run in which single underscores may stand between digits. -/
def grouped? (isDigit : Char → Bool) : List Char → Option (List Char)
  | [] => none
  | [c] => if isDigit c then some [c] else none
  | c :: '_' :: rest => if isDigit c then (grouped? isDigit rest).map (c :: ·) else none
  | c :: rest => if isDigit c then (grouped? isDigit rest).map (c :: ·) else none

/-- The digits of a number in base ten, which has no leading zero unless it is zero. -/
def whole? (text : List Char) : Option (List Char) :=
  match grouped? Char.isDigit text with
  | some ('0' :: _ :: _) => none
  | digits => digits

/-- The value of a digit in a base up to sixteen. -/
def digitIn? (base : Nat) (c : Char) : Option Nat :=
  let value? :=
    if c.isDigit then some (c.toNat - '0'.toNat)
    else if 'a' ≤ c ∧ c ≤ 'f' then some (c.toNat - 'a'.toNat + 10)
    else if 'A' ≤ c ∧ c ≤ 'F' then some (c.toNat - 'A'.toNat + 10)
    else none
  value?.filter (· < base)

/-- The value of digits in a base. -/
def valueIn (base : Nat) (digits : List Char) : Nat :=
  digits.foldl (fun value c => base * value + (digitIn? base c).getD 0) 0

/-- The sign of a word and what follows it. -/
def signed : List Char → Bool × List Char
  | '+' :: rest => (false, rest)
  | '-' :: rest => (true, rest)
  | text => (false, text)

/-- An integer in the given base, if it has 64 bits. -/
def integerIn? (base : Nat) (text : List Char) : Option Node :=
  match grouped? (fun c => (digitIn? base c).isSome) text with
  | none => none
  | some digits =>
    let value : Int := valueIn base digits
    if value ≤ Number.greatest then some (.integer value) else none

/-- An integer. Only in base ten it may have a sign. -/
def integer? : List Char → Option Node
  | '0' :: 'x' :: digits => integerIn? 16 digits
  | '0' :: 'o' :: digits => integerIn? 8 digits
  | '0' :: 'b' :: digits => integerIn? 2 digits
  | text =>
    let (negative, magnitude) := signed text
    match whole? magnitude with
    | none => none
    | some digits =>
      let value : Int := if negative then -(valueIn 10 digits : Int) else valueIn 10 digits
      if Number.least ≤ value ∧ value ≤ Number.greatest then some (.integer value) else none

/-- The parts of a text before and after the first character of a class, which is left out. -/
def parted (isMark : Char → Bool) (text : List Char) : List Char × Option (List Char) :=
  match text.dropWhile fun c => !isMark c with
  | [] => (text, none)
  | _ :: rest => (text.takeWhile fun c => !isMark c, some rest)

/-- A floating-point number with a fraction, an exponent, or both. One beyond the range is refused
if it is positive. -/
def fraction? (text : List Char) : Option Node := do
  let (negative, magnitude) := signed text
  let (mantissa, exponent) := parted (fun c => c = 'e' || c = 'E') magnitude
  let (whole, places) := parted (· = '.') mantissa
  guard (exponent.isSome || places.isSome)
  let wholeDigits ← whole? whole
  let placeDigits ← match places with
    | some places => grouped? Char.isDigit places
    | none => some []
  let exponentText ← match exponent with
    | some exponent =>
      let (below, size) := signed exponent
      (grouped? Char.isDigit size).map fun digits =>
        'e' :: (if below then '-' :: digits else digits)
    | none => some []
  let value ← (Number.readMagnitude negative
    (wholeDigits ++ '.' :: placeDigits ++ exponentText)).toOption
  guard (value ≠ .infinity false)
  pure (.float value)

/-- A floating-point number that is not finite. -/
def special? (text : List Char) : Option Node :=
  let (negative, name) := signed text
  if name = ['i', 'n', 'f'] then some (.float (.infinity negative))
  else if name = ['n', 'a', 'n'] then some (.float (.nan negative))
  else none

/-! ## Dates and times -/

/-- A number of exactly two digits, up to a limit. -/
def twoDigits? (first second : Char) (limit : Nat) : Option Nat :=
  if first.isDigit && second.isDigit then
    let value := valueIn 10 [first, second]
    if value ≤ limit then some value else none
  else none

/-- Whether a year has a leap day. -/
def isLeapYear (year : Nat) : Bool :=
  year % 4 = 0 && (year % 100 ≠ 0 || year % 400 = 0)

/-- The number of days of a month. -/
def daysIn (year month : Nat) : Nat :=
  if month = 2 then (if isLeapYear year then 29 else 28)
  else if month = 4 ∨ month = 6 ∨ month = 9 ∨ month = 11 then 30
  else 31

/-- A date at the beginning of a word: its spelling, and what follows it. -/
def date? : List Char → Option (List Char × List Char)
  | y1 :: y2 :: y3 :: y4 :: '-' :: m1 :: m2 :: '-' :: d1 :: d2 :: rest => do
    guard ([y1, y2, y3, y4].all Char.isDigit)
    let month ← twoDigits? m1 m2 12
    let day ← twoDigits? d1 d2 (daysIn (valueIn 10 [y1, y2, y3, y4]) month)
    guard (1 ≤ month && 1 ≤ day)
    pure ([y1, y2, y3, y4, '-', m1, m2, '-', d1, d2], rest)
  | _ => none

/-- A fraction of a second at the beginning of a word: its spelling, to the nanosecond and without
zeros at the end, and what follows it. -/
def secondFraction? : List Char → Option (List Char × List Char)
  | '.' :: rest =>
    let digits := rest.takeWhile Char.isDigit
    if digits = [] then none
    else
      let kept := ((digits.take 9).reverse.dropWhile (· = '0')).reverse
      some (if kept = [] then [] else '.' :: kept, rest.dropWhile Char.isDigit)
  | text => some ([], text)

/-- A time of day at the beginning of a word: its spelling, and what follows it. -/
def time? : List Char → Option (List Char × List Char)
  | h1 :: h2 :: ':' :: m1 :: m2 :: ':' :: s1 :: s2 :: rest => do
    discard (twoDigits? h1 h2 23)
    discard (twoDigits? m1 m2 59)
    discard (twoDigits? s1 s2 60)
    let (fraction, rest) ← secondFraction? rest
    pure ([h1, h2, ':', m1, m2, ':', s1, s2] ++ fraction, rest)
  | _ => none

/-- The spelling of the offset that a word ends with. An offset of zero counts as positive. -/
def offset? : List Char → Option (List Char)
  | [] => some []
  | ['Z'] => some ['Z']
  | ['z'] => some ['Z']
  | [sign, h1, h2, ':', m1, m2] => do
    guard (sign = '+' || sign = '-')
    let hours ← twoDigits? h1 h2 23
    let minutes ← twoDigits? m1 m2 59
    pure ((if hours = 0 ∧ minutes = 0 then '+' else sign) :: [h1, h2, ':', m1, m2])
  | _ => none

/-- A date, a time, or a date with a time, between which a space counts as the letter. -/
def moment? (text : List Char) : Option Node :=
  let spelling :=
    match date? text with
    | some (date, []) => some date
    | some (date, letter :: rest) => do
      guard (letter = 'T' || letter = 't' || letter = ' ')
      let (time, rest) ← time? rest
      let offset ← offset? rest
      pure (date ++ 'T' :: time ++ offset)
    | none =>
      match time? text with
      | some (time, []) => some time
      | _ => none
  spelling.map fun spelling => .moment (String.ofList spelling)

/-! ## Words -/

/-- What a word without quotes says. -/
def scalar? (word : List Char) : Option Node :=
  if word = ['t', 'r', 'u', 'e'] then some (.boolean true)
  else if word = ['f', 'a', 'l', 's', 'e'] then some (.boolean false)
  else
    (moment? word).orElse fun _ =>
      (integer? word).orElse fun _ => (fraction? word).orElse fun _ => special? word

end Injector.Toml
