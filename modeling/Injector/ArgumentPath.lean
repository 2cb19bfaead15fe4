import Injector.Value.Basic

/-!
# Argument paths

An argument path says which argument or property is being resolved, and where inside it: one segment
for each element of an array, list or set, and for each value of a map. Messages quote its text.
-/

namespace Injector

/-- A position inside a collection. -/
inductive PathKey
  | index (position : Nat)
  | key (value : Value)

/-- Which argument is being resolved, and where inside it. -/
inductive ArgumentPath
  | property (name : String)
  | argument (index : Nat)
  | keyed (parent : ArgumentPath) (key : PathKey)

/-- The text of a position inside a collection. -/
def PathKey.toText : PathKey → String
  | .index position => Number.integerText position
  | .key value => value.toText

namespace ArgumentPath

/-- The path of the element at a position. -/
def atIndex (path : ArgumentPath) (position : Nat) : ArgumentPath :=
  path.keyed (.index position)

/-- The path of the value under a key. -/
def atKey (path : ArgumentPath) (key : Value) : ArgumentPath :=
  path.keyed (.key key)

/-- The text of a path. -/
def toText : ArgumentPath → String
  | property name => "bean property '" ++ name ++ "'"
  | argument index => "constructor argument with index " ++ Number.integerText index
  | keyed parent key => parent.toText ++ " with key [" ++ key.toText ++ "]"

end ArgumentPath

end Injector
