import Injector.Container.Autowiring
import Injector.Container.Products
import Injector.Placeholder
import Injector.Resolution

/-!
# Having beans

A bean that is asked for may have to be created, and creating it asks for other beans. The recursion
runs over `Request`s: every function here that needs another bean hands a request to its `Handler`.
`serve` ties the knot, one level of depth at a time, so each function can be read and reasoned about
with its handler standing for whatever is nested in it.

A bean is created once its prerequisites exist, and its constructor is called once all its arguments
and properties are resolved. A bean that is asked for while it is being created is refused.

Depth also limits the nesting of placeholders. A request that is served with some depth is served in
the same way with more.
-/

namespace Injector

/-! ## Requests -/

/-- Something that may ask for further beans. -/
inductive Request
  /-- The bean of a name. -/
  | bean (chain : Chain) (name : String)
  /-- A new bean by a merged definition, under a name. -/
  | creation (chain : Chain) (name : String) (definition : Definition)

/-- Does what is requested. -/
abbrev Handler := Request → Work Value

/-- Having beans by their names with a handler. -/
def Handler.fetch (handler : Handler) : Fetch := fun chain name => handler (.bean chain name)

/-! ## What a container provides -/

/-- Looking up beans in a chain of containers. -/
def Chain.lookup (chain : Chain) (handler : Handler) : Lookup where
  contains name := return (← get).knows chain name
  bean name := handler (.bean chain name)
  beanOfType name type := fetchOfType handler.fetch chain name type
  beanByType type := return (← fetchNamed handler.fetch chain type).2

/-- A name for a nested bean that is not in use in the container. -/
def Registry.freeName (registry : Registry) (name : String) : Work String := do
  let given := (← Work.state registry).freeName name
  Work.note (.named registry.index name given)
  pure given

/-- What a container provides for the resolution of raw values. -/
def Registry.provider (registry : Registry) (ancestors : Chain) (handler : Handler) (depth : Nat) :
    Provider where
  lookup := Chain.lookup (registry :: ancestors) handler
  parent := if ancestors.isEmpty then none else some (Chain.lookup ancestors handler)
  namedBean type := fetchNamed handler.fetch (registry :: ancestors) type
  autowire dependency requester converter :=
    autowire handler.fetch (registry :: ancestors) dependency requester converter
  noteDependent name dependent := registry.noteDependent name dependent
  noteContained inner outer := registry.noteContained inner outer
  freeName name := registry.freeName name
  merged name definition containing :=
    mergedNestedDefinition (registry :: ancestors) name definition (some containing)
  create name definition := handler (.creation (registry :: ancestors) name definition)
  product label maker name processed := productOf registry label maker name processed
  evaluate text := Work.ofStop (registry.settings.evaluate depth text)
  typeNamed name := Work.ofExcept (registry.classes.typeNamed name)

/-! ## Creation -/

/-- Calls a constructor and notes the call. -/
def construct (registry : Registry) (owner : Owner) (className : String) (constructor : Constructor)
    (inputs : BeanInputs) : Work Value := do
  match constructor inputs with
  | .error cause =>
    Work.note (.constructed
      { registry := registry.index, owner, className, inputs, made := none })
    Work.fail cause
  | .ok blueprint =>
    let (value, after) := (← get).makeBean blueprint
    set after
    Work.note (.constructed
      { registry := registry.index, owner, className, inputs, made := some value })
    pure value

/-- The values of constructor arguments, from an index on. -/
def Resolution.resolveArguments (r : Resolution) : Nat → List RawValue → Work (List Value)
  | _, [] => pure []
  | index, raw :: rest => do
    let value ← r.resolve (.argument index) [.argument index] raw
    return value :: (← r.resolveArguments (index + 1) rest)

/-- The values of properties. -/
def Resolution.resolveAll (r : Resolution) :
    List (String × RawValue) → Table Value → Work (Table Value)
  | [], table => pure table
  | (name, raw) :: rest, table => do
    let value ← r.resolve (.property name) [.property name] raw
    r.resolveAll rest (table.insert name value)

/-- A new bean by a merged definition, under a name. Nothing is handed to the constructor unless every
value is resolved. -/
def instantiate (handler : Handler) (depth : Nat) (registry : Registry) (ancestors : Chain)
    (name : String) (owner : Owner) (definition : Definition) : Work Value := do
  let blame := Failure.creation definition.resource (some name)
  match definition.className with
  | none => Work.fail (blame .noClass none)
  | some className =>
    match registry.classes.constructor? className with
    | none => Work.fail (blame (.unknownClass className) (some (.typeNotFound className)))
    | some constructor =>
      let r : Resolution :=
        { provider := registry.provider ancestors handler depth
          beanName := name
          definition
          converter := registry.converter
          owner }
      let arguments ← r.resolveArguments 0 definition.arguments
      let properties ← r.resolveAll definition.properties .empty
      Work.explain (fun cause => blame .construction (some cause))
        (construct registry owner className constructor { beanName := name, arguments, properties })

/-- Does the work while a bean counts as being created, unless it does already. -/
def guarded (registry : Registry) (name : String) (work : Work Value) : Work Value := do
  if (← Work.state registry).inCreation.contains name then
    Work.fail (.currentlyInCreation name)
  else
    Work.update registry fun state => { state with inCreation := state.inCreation.insert name }
    Work.endingWith work fun world =>
      let state := world.state registry.index
      world.withState registry.index { state with inCreation := state.inCreation.erase name }

/-- The singleton of a name, or one that is made and kept. -/
def singletonOr (registry : Registry) (name : String) (create : Work Value) : Work Value := do
  match (← Work.state registry).singletons.find? name with
  | some shared => pure shared
  | none =>
    let made ← create
    -- creating it may have brought it about on another way as well; the first one stays
    Work.update registry fun state =>
      { state with singletons := state.singletons.insertNew name made }
    return ((← Work.state registry).singletons.find? name).getD made

/-- Has the beans that have to exist before another one. -/
def realizePrerequisites (handler : Handler) (registry : Registry) (ancestors : Chain)
    (name : String) (merged : Definition) : Work Unit :=
  merged.dependsOn.forM fun prerequisite => do
    if (← Work.state registry).isDependent name prerequisite then
      Work.fail (.creation merged.resource (some name) (.circularDependsOn name prerequisite) none)
    else
      -- noted before the prerequisite is had, so that the way back to this bean is seen from there
      registry.noteDependent prerequisite name
      Work.explain
        (fun cause =>
          .creation merged.resource (some name) (.missingPrerequisite name prerequisite) (some cause))
        (discard (handler (.bean (registry :: ancestors) prerequisite)))

/-- The instance for a bean that is defined in the container: its singleton, or a new one. -/
def instanceOf (handler : Handler) (depth : Nat) (registry : Registry) (ancestors : Chain)
    (name : String) (merged : Definition) : Work Value :=
  let create :=
    guarded registry name
      (instantiate handler depth registry ancestors name (.merged registry.index name) merged)
  if merged.isSingleton then singletonOr registry name create else create

/-! ## Having a bean by its name -/

/-- The bean of a name that is not known in a container: that of its ancestors. -/
def fetchAbove (handler : Handler) (ancestors : Chain) (written name : String) : Work Value :=
  if ancestors.isEmpty then Work.fail (.noSuchBean name)
  else
    handler (.bean ancestors (if asksForFactory written then factoryMark ++ name else name))

/-- The bean of a name, as written by who asks for it. -/
def fetchBean (handler : Handler) (depth : Nat) (registry : Registry) (ancestors : Chain)
    (written : String) : Work Value := do
  let state ← Work.state registry
  let name := state.canonicalName (plainName written)
  match state.singletons.find? name with
  | some shared =>
    let synthetic := (state.definition? name).any (·.synthetic)
    exposed registry shared written name (!synthetic)
  | none =>
    if state.definitions.contains name then
      let merged ← mergedDefinition (registry :: ancestors) name
      realizePrerequisites handler registry ancestors name merged
      let instance_ ← instanceOf handler depth registry ancestors name merged
      exposed registry instance_ written name (!merged.synthetic)
    else fetchAbove handler ancestors written name

/-! ## Serving requests -/

/-- Does what is requested, with a handler for what is nested in it. -/
def step (handler : Handler) (depth : Nat) : Handler
  | .bean [] name => Work.fail (.noSuchBean name)
  | .bean (registry :: ancestors) name => do
    let value ← fetchBean handler depth registry ancestors name
    Work.note (.served registry.index name value)
    pure value
  | .creation [] name _ => Work.fail (.noSuchBean name)
  | .creation (registry :: ancestors) name definition =>
    instantiate handler depth registry ancestors name .nothing definition

/-- Does what is requested, with requests nested no deeper than the given depth. -/
def serve : Nat → Handler
  | 0, _ => throw .tooDeep
  | depth + 1, request => step (serve depth) depth request

end Injector
