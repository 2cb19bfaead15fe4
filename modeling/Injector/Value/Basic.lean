import Injector.Failure
import Injector.Table
import Injector.ValueType

/-!
# Values

A `Value` is what resolution yields: a scalar, a text, a bean, or a collection of values.

A `Bean` is known by its label alone; its type name and, for a factory, what it makes come with it.
The explicit-null marker is a bean that stands for "no bean" and has no label.

Sets and maps keep the order in which elements and keys were first added. What counts as the same
element is settled in `Injector.Value.Equality`, and adding there too.
-/

namespace Injector

/-! ## Beans -/

/-- Which bean it is. Beans given from outside bring a label; those made by constructors and
factories are numbered. -/
inductive BeanLabel
  | given (label : String)
  | made (serial : Nat)
  deriving DecidableEq, Inhabited

/-- The text of a label. -/
def BeanLabel.toText : BeanLabel → String
  | given label => label
  | made serial => Number.integerText serial

/-- What a factory yields when it is asked for its product. -/
inductive Production (ν : Type)
  /-- The same value every time. -/
  | always (product : ν)
  /-- A new plain bean every time. -/
  | fresh (className : String)
  /-- No product but a failure. -/
  | failing (cause : Failure)
  /-- How often this factory was asked before. -/
  | counting
  /-- Whatever it answers after having been asked so often. -/
  | answering (answer : Nat → Except Failure ν)

/-- A bean that exists to make another value. -/
structure Factory (ν : Type) where
  production : Production ν := .counting
  /-- The type of the product, as far as the factory knows it. -/
  objectType : Option ValueType := none
  /-- Whether the product may be kept and shared. -/
  singleton : Bool := true

/-- A managed object. The parameter is the type of values, which beans are part of. -/
inductive BeanOf (ν : Type)
  /-- The explicit-null marker. -/
  | null
  | plain (typeName : String) (label : BeanLabel)
  | factory (typeName : String) (label : BeanLabel) (maker : Factory ν)

/-! ## Values -/

/-- A resolved value. -/
inductive Value
  | null
  | bool (value : Bool)
  | int (value : Int64)
  | float (value : Binary64)
  | char (value : Char)
  | text (value : String)
  | bean (value : BeanOf Value)
  | array (elementType : ValueType) (items : List Value)
  | list (items : List Value)
  | set (items : List Value)
  | map (entries : List (Value × Value))
  | properties (table : Table String)
  deriving Inhabited

/-- A managed object. -/
abbrev Bean := BeanOf Value

namespace BeanOf

variable {ν : Type}

/-- The name of the bean's class. -/
def typeName : BeanOf ν → String
  | null => "null"
  | plain typeName _ => typeName
  | factory typeName _ _ => typeName

/-- Which bean it is; none for the explicit-null marker. -/
def label? : BeanOf ν → Option BeanLabel
  | null => none
  | plain _ label => some label
  | factory _ label _ => some label

/-- What the bean makes, if it is a factory. -/
def factory? : BeanOf ν → Option (BeanLabel × Factory ν)
  | factory _ label maker => some (label, maker)
  | _ => none

/-- Whether this is the explicit-null marker. -/
def isNull : BeanOf ν → Bool
  | null => true
  | _ => false

/-- The text of a bean: its class and its label, which is `0` for the explicit-null marker. -/
def toText (bean : BeanOf ν) : String :=
  bean.typeName ++ "@" ++
    match bean.label? with
    | some label => label.toText
    | none => "0"

end BeanOf

namespace Value

/-- The bean, if the value is one. -/
def bean? : Value → Option Bean
  | bean value => some value
  | _ => none

/-- The text, if the value is one. -/
def text? : Value → Option String
  | text value => some value
  | _ => none

/-- The boolean, if the value is one. -/
def bool? : Value → Option Bool
  | bool value => some value
  | _ => none

/-- The integer, if the value is one. -/
def int? : Value → Option Int64
  | int value => some value
  | _ => none

/-- The elements, if the value is a list. -/
def list? : Value → Option (List Value)
  | list items => some items
  | _ => none

/-- The element type and the elements, if the value is an array. -/
def array? : Value → Option (ValueType × List Value)
  | array elementType items => some (elementType, items)
  | _ => none

/-- The factory, if the value is a bean that is one. -/
def factory? (value : Value) : Option (BeanLabel × Factory Value) :=
  value.bean?.bind BeanOf.factory?

/-- Whether the value is null. A bean that is the explicit-null marker is not. -/
def isNull : Value → Bool
  | null => true
  | _ => false

/-- Whether the value is the explicit-null marker. -/
def isNullBean (value : Value) : Bool :=
  value.bean?.any BeanOf.isNull

/-- Null in place of the explicit-null marker; every other value as it is. -/
def withoutMarker (value : Value) : Value :=
  if value.isNullBean then null else value

/-- The marker is never left over. -/
@[simp] theorem isNullBean_withoutMarker (value : Value) :
    value.withoutMarker.isNullBean = false := by
  unfold withoutMarker
  split
  · rfl
  · simpa using ‹¬value.isNullBean = true›

/-- The word for the kind of a value; a bean's is the name of its class. -/
def kind : Value → String
  | null => "null"
  | bool _ => "bool"
  | int _ => "int"
  | float _ => "float"
  | char _ => "char"
  | text _ => "string"
  | bean value => value.typeName
  | array .. => "array"
  | list _ => "list"
  | set _ => "set"
  | map _ => "map"
  | properties _ => "properties"

/-! ## Texts of values -/

/-- The text of an entry. -/
def entryText (key value : String) : String :=
  key ++ "=" ++ value

/-- The text of a sequence, from the texts of its elements. -/
def bracketed (texts : List String) : String :=
  "[" ++ String.intercalate ", " texts ++ "]"

/-- The text of a table, from the texts of its entries. -/
def braced (texts : List String) : String :=
  "\x7b" ++ String.intercalate ", " texts ++ "\x7d"

mutual

/-- The text of a value. -/
def toText : Value → String
  | null => "null"
  | bool value => if value then "true" else "false"
  | int value => Number.integerText value.toInt
  | float value => value.toText
  | char value => String.singleton value
  | text value => value
  | bean value => value.toText
  | array _ items => bracketed (itemTexts items)
  | list items => bracketed (itemTexts items)
  | set items => bracketed (itemTexts items)
  | map entries => braced (entryTexts entries)
  | properties table => braced (table.entries.map fun (key, value) => entryText key value)

/-- The texts of the values of a sequence. -/
def itemTexts : List Value → List String
  | [] => []
  | item :: rest => item.toText :: itemTexts rest

/-- The texts of the entries of a map. -/
def entryTexts : List (Value × Value) → List String
  | [] => []
  | (key, value) :: rest => entryText key.toText value.toText :: entryTexts rest

end

end Value

/-! ## Membership of types -/

/-- Whether a value may be used as it is where the type is required. Null has no scalar type but
text; a class takes null, the explicit-null marker and the beans of its own name. -/
def ValueType.accepts : ValueType → Value → Bool
  | .any, _ => true
  | .bool, .bool _ => true
  | .int, .int _ => true
  | .float, .float _ => true
  | .char, .char _ => true
  | .text, .text _ => true
  | .text, .null => true
  | .bean _, .null => true
  | .bean className, .bean value => value.isNull || value.typeName == className
  | _, _ => false

end Injector
