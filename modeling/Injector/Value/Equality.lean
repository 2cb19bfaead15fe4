import Injector.Value.Basic

/-!
# Which values are the same

`Value.same` compares kinds first and contents next: floats bit by bit, beans by their labels, arrays
with their element types. Sets, maps and property tables are compared without regard to order: they
have the same size, and what is in one is in the other.

`Value.digest` is what a hash function is fed with for a value; the same values have the same digest.

Collecting into sets and maps follows the same comparison: a set keeps the first of several same
elements, a map keeps the first key and the last value.
-/

namespace Injector

/-- Whether two beans are the same object. The explicit-null marker is the same as itself alone. -/
def BeanOf.same {ν : Type} (first second : BeanOf ν) : Bool :=
  first.label? == second.label?

/-- Whether two property tables bind the same names to the same texts. -/
def Table.same (first second : Table String) : Bool :=
  first.size == second.size &&
    first.entries.all fun (name, value) => second.find? name == some value

namespace Value

mutual

/-- Whether two values are the same. -/
def same : Value → Value → Bool
  | null, null => true
  | bool first, bool second => first == second
  | int first, int second => first == second
  | float first, float second => first == second
  | char first, char second => first == second
  | text first, text second => first == second
  | bean first, bean second => first.same second
  | array firstType first, array secondType second =>
    firstType == secondType && sameItems first second
  | list first, list second => sameItems first second
  | set first, set second => first.length == second.length && itemsAmong first second
  | map first, map second => first.length == second.length && entriesAmong first second
  | properties first, properties second => first.same second
  | _, _ => false

/-- Whether two sequences have the same values in the same places. -/
def sameItems : List Value → List Value → Bool
  | [], [] => true
  | first :: firsts, second :: seconds => first.same second && sameItems firsts seconds
  | _, _ => false

/-- Whether each value of the first sequence is among those of the second. -/
def itemsAmong : List Value → List Value → Bool
  | [], _ => true
  | first :: firsts, seconds =>
    seconds.any (fun second => first.same second) && itemsAmong firsts seconds

/-- Whether each entry of the first sequence is among those of the second. -/
def entriesAmong : List (Value × Value) → List (Value × Value) → Bool
  | [], _ => true
  | (key, value) :: rest, seconds =>
    seconds.any (fun second => key.same second.1 && value.same second.2) &&
      entriesAmong rest seconds

end

instance : BEq Value := ⟨same⟩

/-! ## Digests -/

/-- A word that a hash function is fed with. -/
inductive DigestWord
  | kind (index : Nat)
  | size (count : Nat)
  | bit (value : Bool)
  | integer (value : Int64)
  | float (bits : UInt64)
  | char (value : Char)
  | text (value : String)
  | label (value : Option BeanLabel)
  deriving DecidableEq

mutual

/-- The words that a hash function is fed with for a value. Of a set, a map or a property table only
the size is told, because their order does not count. -/
def digest : Value → List DigestWord
  | null => [.kind 0]
  | bool value => [.kind 1, .bit value]
  | int value => [.kind 2, .integer value]
  | float value => [.kind 3, .float value.bits]
  | char value => [.kind 4, .char value]
  | text value => [.kind 5, .text value]
  | bean value => [.kind 6, .label value.label?]
  | array _ items => .kind 7 :: .size items.length :: digests items
  | list items => .kind 8 :: .size items.length :: digests items
  | set items => [.kind 9, .size items.length]
  | map entries => [.kind 10, .size entries.length]
  | properties table => [.kind 11, .size table.size]

/-- The digests of the values of a sequence, one after the other. -/
def digests : List Value → List DigestWord
  | [] => []
  | item :: rest => item.digest ++ digests rest

end

/-! ## Collecting -/

/-- Whether a value is among those of a sequence. -/
def isAmong (value : Value) (items : List Value) : Bool :=
  items.any value.same

/-- Adds an element at the end of a set unless it is there already. -/
def addItem (items : List Value) (item : Value) : List Value :=
  if item.isAmong items then items else items ++ [item]

/-- Binds a key of a map: in place, and under the key that is there, if it is bound already. -/
def addEntry (key value : Value) : List (Value × Value) → List (Value × Value)
  | [] => [(key, value)]
  | (other, old) :: rest =>
    if key.same other then (other, value) :: rest else (other, old) :: addEntry key value rest

/-- The set of the given elements. -/
def setOf (items : List Value) : Value :=
  set (items.foldl addItem [])

/-- The map of the given entries. -/
def mapOf (entries : List (Value × Value)) : Value :=
  map (entries.foldl (fun collected entry => addEntry entry.1 entry.2 collected) [])

end Value

end Injector
