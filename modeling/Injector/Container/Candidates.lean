import Injector.Container.Merging

/-!
# Candidates by type

Which beans of a container are of a type, and which of several is meant.

A bean that exists is judged by itself; of one that does not, the merged definition is asked for its
class. Looking at definitions keeps their merged forms, so this is work, but it never fails: a
definition that cannot be merged is of no type.

Of several candidates the only primary one is meant, or else the first that has the name of the place
that it is for, or an alias of that name.
-/

namespace Injector

/-- Whether an existing bean is of a type. A factory is of the type of its product. -/
def ClassTable.serves (classes : ClassTable) (type : ValueType) (instance_ : Value) : Bool :=
  match instance_ with
  | .bean .null => false
  | .bean (.factory typeName _ maker) =>
    maker.objectType.or (classes.productType? typeName) == some type
  | value => type.accepts value

/-- Whether the beans of a class are of a type. -/
def ClassTable.makes (classes : ClassTable) (type : ValueType) (className : String) : Bool :=
  match classes.productType? className with
  | some product => product == type
  | none => type == .bean className

/-- Whether a bean of a container is of a type. -/
def matchesType (registry : Registry) (ancestors : Chain) (type : ValueType) (name : String) :
    Work Bool := do
  if type == .any then return true
  match (← Work.state registry).singletons.find? name with
  | some shared => return registry.classes.serves type shared
  | none =>
    match ← Work.attempt (mergedDefinition (registry :: ancestors) name) with
    | .error _ => return false
    | .ok merged => return merged.className.any (registry.classes.makes type)

/-- The names of a container's own beans of a type: the defined ones first, then the singletons that
have no definition. -/
def namesForType (registry : Registry) (ancestors : Chain) (type : ValueType) :
    Work (List String) := do
  let state ← Work.state registry
  let undefined := state.singletons.keys.filter fun name => !state.definitions.contains name
  (state.definitions.keys ++ undefined).filterM (matchesType registry ancestors type)

/-- Which of several candidates is meant. -/
def State.chooseCandidate (state : State) (candidates : List String)
    (placeName : Option String) : Option String :=
  match candidates.filter fun name => (state.definition? name).any (·.primary) with
  | [primary] => some primary
  | _ =>
    placeName.bind fun wanted =>
      candidates.find? fun name => name == wanted || (state.aliasesOf name).contains wanted

end Injector
