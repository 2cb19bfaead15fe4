import Injector.Text.Listing
import Injector.Value.Basic

/-!
# Bean classes

A class is a constructor: it is given the resolved arguments and properties of one bean and answers
with a `Blueprint`, or with a failure. Which bean it becomes is for the container to say, so a
blueprint has no label.

A class of factories also tells the type of the products of its beans.

The last part offers constructors that need no programming: they require some properties and then
yield what a `Plan` says.
-/

namespace Injector

/-! ## What constructors take and give -/

/-- The resolved values that a constructor is given. -/
structure BeanInputs where
  beanName : String
  arguments : List Value := []
  properties : Table Value := .empty

namespace BeanInputs

/-- The argument at a position. -/
def argument? (inputs : BeanInputs) (position : Nat) : Option Value :=
  inputs.arguments[position]?

/-- The property of a name. -/
def get? (inputs : BeanInputs) (name : String) : Option Value :=
  inputs.properties.find? name

/-- The property of a name, which has to be there. -/
def require (inputs : BeanInputs) (name : String) : Except Failure Value :=
  match inputs.get? name with
  | some value => .ok value
  | none => .error (.creation none (some inputs.beanName) (.requiredProperty name) none)

end BeanInputs

/-- What a constructor makes: a bean that has no label yet. -/
inductive Blueprint
  | null
  | plain (typeName : String)
  | factory (typeName : String) (maker : Factory Value)

/-- Makes a bean from resolved values, or fails. -/
abbrev Constructor := BeanInputs → Except Failure Blueprint

/-- A class of beans. -/
structure BeanClass where
  construct : Constructor
  /-- The type of what the beans of this class produce, if they are factories. -/
  productType : Option ValueType := none

/-! ## Class tables -/

/-- The classes that a container knows, by name. -/
structure ClassTable where
  classes : Table BeanClass := .empty

namespace ClassTable

instance : Inhabited ClassTable := ⟨{}⟩

/-- Adds a class, instead of the one that had the name. -/
def register (table : ClassTable) (name : String) (beanClass : BeanClass) : ClassTable :=
  ⟨table.classes.insert name beanClass⟩

/-- Whether there is a class of that name. -/
def contains (table : ClassTable) (name : String) : Bool :=
  table.classes.contains name

/-- The constructor of a class. -/
def constructor? (table : ClassTable) (name : String) : Option Constructor :=
  (table.classes.find? name).map BeanClass.construct

/-- The type of the products of a class of factories. -/
def productType? (table : ClassTable) (name : String) : Option ValueType :=
  (table.classes.find? name).bind BeanClass.productType

/-- The type that a name stands for: one of the built-in names, or else a class. -/
def typeNamed (table : ClassTable) (name : String) : Except Failure ValueType :=
  match ValueType.builtin? name with
  | some type => .ok type
  | none => if table.contains name then .ok (.bean name) else .error (.typeNotFound name)

/-- The names of the classes in the order of code points. -/
def sortedNames (table : ClassTable) : List String :=
  table.classes.keys.mergeSort fun first second => first ≤ second

/-- What is printed for a class table: a listing of the names of the classes. Constructors cannot be
printed. Nothing else is computed from this text. -/
def summary (table : ClassTable) : String :=
  "ClassRegistry \x7b classes: [" ++
    String.intercalate ", " (table.sortedNames.map Text.listing) ++ "] \x7d"

end ClassTable

/-! ## Constructors by plan -/

/-- What the factories of a planned class yield. -/
inductive ProductSource
  | production (production : Production Value)
  /-- The value of a property, which is required when the factory is constructed. -/
  | property (name : String)

/-- What a planned constructor makes. -/
inductive Plan
  | plain (typeName : String)
  | null
  | failing (cause : Failure)
  | factory (typeName : String) (source : ProductSource) (objectType : Option ValueType)
      (singleton : Bool)

/-- The production of a factory that is constructed from the given values. -/
def ProductSource.settle (source : ProductSource) (inputs : BeanInputs) :
    Except Failure (Production Value) :=
  match source with
  | .production settled => .ok settled
  | .property name => (inputs.require name).map .always

/-- The constructor that requires some properties, in order, and then follows a plan. -/
def Plan.constructor (plan : Plan) (required : List String) : Constructor := fun inputs => do
  required.forM fun name => discard (inputs.require name)
  match plan with
  | .plain typeName => pure (.plain typeName)
  | .null => pure .null
  | .failing cause => throw cause
  | .factory typeName source objectType singleton =>
    let production ← source.settle inputs
    pure (.factory typeName { production, objectType, singleton })

end Injector
