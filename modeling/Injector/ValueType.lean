/-!
# Types of values

A `ValueType` is what a value can be required to be: anything at all, one of the scalar kinds, or an
instance of a named bean class. The scalar kinds are known under several names each.
-/

namespace Injector

/-- What a value can be required to be. -/
inductive ValueType
  | any
  | bool
  | int
  | float
  | char
  | text
  /-- An instance of a bean class, whatever its name. -/
  | bean (className : String)
  deriving DecidableEq, Inhabited

namespace ValueType

/-- The names that are understood without a class of that name, with the types they stand for. -/
def builtinNames : List (String × ValueType) :=
  [("object", any), ("Object", any), ("any", any),
    ("bool", bool), ("boolean", bool), ("Boolean", bool),
    ("int", int), ("integer", int), ("Integer", int), ("long", int), ("Long", int), ("i32", int),
    ("i64", int),
    ("float", float), ("Float", float), ("double", float), ("Double", float), ("f32", float),
    ("f64", float),
    ("char", char), ("Character", char),
    ("string", text), ("String", text), ("str", text)]

/-- The type that a name stands for without a class of that name. -/
def builtin? (name : String) : Option ValueType :=
  builtinNames.lookup name

/-- The name under which messages mention a type. -/
def name : ValueType → String
  | any => "object"
  | bool => "bool"
  | int => "int"
  | float => "float"
  | char => "char"
  | text => "string"
  | bean className => className

end ValueType

end Injector
