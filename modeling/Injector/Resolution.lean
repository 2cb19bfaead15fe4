import Injector.ArgumentPath
import Injector.Container.World
import Injector.Value.Equality

/-!
# Resolution of raw values

Resolving turns a raw value of a definition into a value. Collections are resolved element by element
here; everything else is asked of a `Provider`, the container that builds the bean. Resolution sees
nothing else of containers, so what is said about it holds for every provider.

Failures are reworded on the way out, so that they tell which argument of which bean was being
resolved. The explicit-null marker becomes null where a reference or a nested bean yields it.

Recursion is on the raw value; a nested definition is not entered but handed to the provider.
-/

namespace Injector

/-! ## Providers -/

/-- Looking up beans by name or type. -/
structure Lookup where
  contains : String → Work Bool
  bean : String → Work Value
  beanOfType : String → ValueType → Work Value
  beanByType : ValueType → Work Value

/-- What resolution asks of the container that builds the bean. -/
structure Provider where
  lookup : Lookup
  /-- Looking up beans in the parent container. -/
  parent : Option Lookup
  /-- The one bean of a type, with its name. -/
  namedBean : ValueType → Work (String × Value)
  /-- The beans that a dependency of a bean is satisfied with: their names, as far as they were had,
  and what to inject. -/
  autowire : Dependency → String → Converter → Work (List String × Except Failure Value)
  noteDependent : String → String → Work Unit
  noteContained : String → String → Work Unit
  /-- A name for a nested bean that is not in use. -/
  freeName : String → Work String
  /-- The merged form of a definition that is nested in another one. -/
  merged : String → Definition → Definition → Work Definition
  /-- A new bean by a merged definition. -/
  create : String → Definition → Work Value
  /-- The product of a factory that goes by a name; the flag lets the post-processor see it. -/
  product : BeanLabel → Factory Value → String → Bool → Work Value
  /-- The value of a text. -/
  evaluate : String → Work Value
  typeNamed : String → Work ValueType

/-- The provider for which some texts have values of their own. -/
def Provider.withTexts (provider : Provider) (texts : List (String × Value)) : Provider :=
  { provider with
    evaluate := fun text =>
      match texts.lookup text with
      | some value => pure value
      | none => provider.evaluate text }

/-- The provider that names more beans than it injects. -/
def Provider.withExtraNames (provider : Provider) (extra : List String) : Provider :=
  { provider with
    autowire := fun dependency requester converter => do
      let (names, outcome) ← provider.autowire dependency requester converter
      pure (names ++ extra, outcome) }

/-! ## The bean whose values are resolved -/

/-- What all raw values of one bean are resolved with. -/
structure Resolution where
  provider : Provider
  beanName : String
  definition : Definition
  converter : Converter
  /-- What the raw values belong to. -/
  owner : Owner

/-- The name of a nested bean that has none of its own. -/
def anonymousName (identity : String) : String :=
  "(inner object)#" ++ identity

namespace Resolution

variable (r : Resolution)

/-- The failure to create the bean for a reason, with or without a cause. -/
def blame (fault : CreationFault) (cause : Option Failure) : Failure :=
  .creation r.definition.resource (some r.beanName) fault cause

/-- Does work whose failure is the cause of a failure to create the bean. -/
def blaming {α : Type} (fault : CreationFault) (work : Work α) : Work α :=
  Work.explain (fun cause => r.blame fault (some cause)) work

/-- Keeps what was learnt about the part of the raw value at the steps, innermost first. -/
def learn (steps : List Step) (lesson : Lesson) : Work Unit :=
  modify fun world => world.learn r.owner steps.reverse lesson

/-! ## Names and references -/

/-- The value of a text as a name. -/
def evaluateName (name : String) : Work String := do
  return (← r.provider.evaluate name).toText

/-- A reference to a bean of the container itself. The bean is noted to depend on it. -/
def lookUp (reference : Reference) : Work Value := do
  let name ← reference.name.mapM r.evaluateName
  let known ←
    match reference.type, name with
    | some _, some name => r.provider.lookup.contains name
    | _, _ => pure false
  let (selected, value) ←
    match reference.type, name with
    | some type, some name =>
      if known then do
        let value ← r.provider.lookup.beanOfType name type
        pure (name, value)
      else r.provider.namedBean type
    | some type, none => r.provider.namedBean type
    | none, some name => do
      let value ← r.provider.lookup.bean name
      pure (name, value)
    | none, none => Work.fail (.noSuchBean reference.target)
  r.provider.noteDependent selected r.beanName
  pure value

/-- A reference to a bean of the parent container. -/
def lookUpInParent (reference : Reference) : Work Value :=
  match r.provider.parent with
  | none => Work.fail (r.blame (.noParent reference.target) none)
  | some parent =>
    match reference.type with
    | none => do parent.bean (← r.evaluateName reference.target)
    | some type =>
      match reference.name with
      | none => parent.beanByType type
      | some name => do
        let name ← r.evaluateName name
        if ← parent.contains name then parent.beanOfType name type else parent.beanByType type

/-- The bean that a reference aims at. -/
def resolveReference (path : ArgumentPath) (reference : Reference) : Work Value :=
  r.blaming (.reference reference.target path.toText) do
    let value ← if reference.inParent then r.lookUpInParent reference else r.lookUp reference
    pure value.withoutMarker

/-- The name of a bean, if there is one. -/
def resolveName (path : ArgumentPath) (name : String) : Work Value := do
  let name ← r.evaluateName name
  if ← r.provider.lookup.contains name then pure (.text name)
  else
    Work.fail (.invalidDefinition r.definition.resource (some r.beanName)
      (.unknownName name path.toText))

/-- What the container injects for a dependency. The bean is noted to depend on those named. -/
def resolveDependency (dependency : Dependency) : Work Value := do
  let (names, outcome) ← r.provider.autowire dependency r.beanName r.converter
  let value ← Work.ofExcept outcome
  names.forM fun name => do
    if ← r.provider.lookup.contains name then r.provider.noteDependent name r.beanName
  pure value

/-! ## Nested beans -/

/-- Makes a nested bean by its merged definition. A singleton gets a name that is not in use; a
prototype keeps the name it has. -/
def build (name : String) (merged : Definition) : Work Value := do
  let given ← if merged.isSingleton then r.provider.freeName name else pure name
  -- what is noted from here on stays noted if making the bean fails
  r.provider.noteContained given r.beanName
  merged.dependsOn.forM fun prerequisite => do
    r.provider.noteDependent prerequisite given
    discard (r.provider.lookup.bean prerequisite)
  let made ← r.provider.create given merged
  match made.factory? with
  | some (label, maker) => r.provider.product label maker given (!merged.synthetic)
  | none => pure made

/-- A nested bean. -/
def resolveNested (path : ArgumentPath) (name : String) (definition : Definition) : Work Value := do
  let fault := fun className => CreationFault.innerBean name className path.toText
  let merged ← r.blaming (fault definition.className)
    (r.provider.merged name definition r.definition)
  r.blaming (fault (merged.className.or definition.className)) do
    return (← r.build name merged).withoutMarker

/-! ## Texts -/

/-- The value of a typed text before conversion. If it is not the text itself, that is kept. -/
def evaluateTyped (steps : List Step) (typed : TypedText) : Work Value :=
  match typed.text with
  | none => pure .null
  | some text => do
    let value ← r.provider.evaluate text
    if value.text? != some text then r.learn steps .dynamic
    pure value

/-- The type that a typed text is converted to. What a name stands for is kept. -/
def targetOf (steps : List Step) (typed : TypedText) : Work (Option ValueType) :=
  match typed.knownTarget?, typed.target with
  | some type, _ => pure (some type)
  | none, some (.named name) => do
    let type ← r.provider.typeNamed name
    r.learn steps (.type type)
    pure (some type)
  | none, _ => pure none

/-- A text, evaluated and converted to its type. -/
def resolveTyped (path : ArgumentPath) (steps : List Step) (typed : TypedText) : Work Value := do
  let value ← r.blaming (.evaluation path.toText) (r.evaluateTyped steps typed)
  r.blaming (.conversion path.toText) do
    match ← r.targetOf steps typed with
    | some type => Work.ofExcept (r.converter value type)
    | none => pure value

/-- The text of a key or a value of a properties table; nothing if it evaluates to null. -/
def propertyText (path : ArgumentPath) (steps : List Step) : PropertyText → Work (Option String)
  | .plain text => pure (some text)
  | .typed typed => do
    let value ← r.blaming (.propertiesEntry path.toText) (r.evaluateTyped steps typed)
    pure (if value.isNull then none else some value.toText)

/-- The texts of a properties table, from the entry at a position on. -/
def resolveProperties (path : ArgumentPath) (steps : List Step) :
    Nat → List (PropertyText × PropertyText) → Table String → Work (Table String)
  | _, [], table => pure table
  | position, (key, value) :: rest, table => do
    let key ← r.propertyText path (.key position :: steps) key
    let value ← r.propertyText path (.value position :: steps) value
    match key, value with
    | some key, some value => resolveProperties path steps (position + 1) rest (table.insert key value)
    | _, _ => Work.fail (r.blame (.propertiesNull path.toText) none)

/-- An element of an array of texts: texts are evaluated. -/
def evaluateItem : Value → Work Value
  | .text text => r.provider.evaluate text
  | item => pure item

/-- A value as it is, but for texts and arrays of texts, which are evaluated. An array in which
something changes holds anything from then on. -/
def resolveLiteral : Value → Work Value
  | .text text => r.provider.evaluate text
  | .array .text items => do
    let evaluated ← items.mapM r.evaluateItem
    pure (if Value.sameItems evaluated items then .array .text items else .array .any evaluated)
  | value => pure value

/-- The element type of an array. What its name stands for is kept, and so is that it has none. -/
def elementType (path : ArgumentPath) (steps : List Step) (typeName : Option String)
    (memo : Option ValueType) : Work ValueType :=
  match memo with
  | some type => pure type
  | none => do
    let type ←
      match typeName with
      | some name => r.blaming (.elementType path.toText) (r.provider.typeNamed name)
      | none => pure .any
    r.learn steps (.type type)
    pure type

/-! ## All raw values -/

mutual

/-- The value of the raw value at a path. The steps, innermost first, lead to it from its owner. -/
def resolve (path : ArgumentPath) (steps : List Step) : RawValue → Work Value
  | .reference reference => r.resolveReference path reference
  | .nameReference name => r.resolveName path name
  | .inner identity definition => r.resolveNested path (anonymousName identity) definition
  | .holder name _ definition => r.resolveNested path name definition
  | .dependency dependency => r.resolveDependency dependency
  | .array typeName memo elements => do
    let type ← r.elementType path steps typeName memo
    return .array type (← resolveElements path steps 0 elements)
  | .list elements => return .list (← resolveElements path steps 0 elements)
  | .set elements => return .setOf (← resolveElements path steps 0 elements)
  | .map entries => return .mapOf (← resolveEntries path steps 0 entries)
  | .properties entries => return .properties (← r.resolveProperties path steps 0 entries .empty)
  | .typed typed => r.resolveTyped path steps typed
  | .null => pure .null
  | .literal value => r.resolveLiteral value

/-- The values of the elements of a collection, from a position on. -/
def resolveElements (path : ArgumentPath) (steps : List Step) :
    Nat → List RawValue → Work (List Value)
  | _, [] => pure []
  | position, element :: rest => do
    let value ← resolve (path.atIndex position) (.element position :: steps) element
    return value :: (← resolveElements path steps (position + 1) rest)

/-- The keys and values of a map, from a position on. A key has the path of the map; a value has its
key in its path. -/
def resolveEntries (path : ArgumentPath) (steps : List Step) :
    Nat → List (RawValue × RawValue) → Work (List (Value × Value))
  | _, [] => pure []
  | position, (key, value) :: rest => do
    let key ← resolve path (.key position :: steps) key
    let value ← resolve (path.atKey key) (.value position :: steps) value
    return (key, value) :: (← resolveEntries path steps (position + 1) rest)

end

end Resolution

end Injector
