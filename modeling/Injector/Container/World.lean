import Injector.ClassTable
import Injector.Container.Registration
import Injector.Conversion

/-!
# Containers and the work they do

A `Registry` is what is fixed about a container: its settings, its classes, its converter. A container
with ancestors is a `Chain`: its own registry first, its parent's next.

The `World` is what changes: the state of every registry, how many beans were made, how often each
factory was asked. It also keeps a journal of what was done, newest first.

`Work` is a computation on the world that may fail. A failure undoes nothing: what was done before it
stays done.
-/

namespace Injector

/-! ## Registries and chains -/

/-- Changes or refuses the product of the factory bean of a name. -/
abbrev PostProcessor := String → Value → Except Failure Value

/-- What is fixed about a container. -/
structure Registry where
  /-- Which state of the world is this container's. -/
  index : Nat
  settings : Settings := {}
  classes : ClassTable := {}
  converter : Converter := Conversion.simple
  postProcessor : Option PostProcessor := none

/-- A container and its ancestors, nearest first. -/
abbrev Chain := List Registry

/-! ## Places -/

/-- What a raw value belongs to while it is resolved. -/
inductive Owner
  /-- Nothing that anyone looks at again. -/
  | nothing
  /-- The raw value that the world keeps for itself. -/
  | bench
  /-- A merged definition that a container keeps. -/
  | merged (registry : Nat) (name : String)
  deriving DecidableEq

/-! ## The world -/

/-- A call of a constructor. -/
structure Construction where
  registry : Nat
  /-- Whose merged definition the bean was made from. -/
  owner : Owner
  className : String
  inputs : BeanInputs
  /-- What was made; nothing if the constructor failed. -/
  made : Option Value

/-- Something that a container did. -/
inductive Event
  | constructed (construction : Construction)
  /-- A bean was asked for by name and had. -/
  | served (registry : Nat) (name : String) (value : Value)
  /-- A nested singleton got its name. -/
  | named (registry : Nat) (wanted given : String)
  /-- A factory made a product. -/
  | produced (factory : BeanLabel) (product : Value)
  /-- A product was given for a factory under a name. The holder is the singleton of that name, if the
  factory lets its product be shared. -/
  | given (registry : Nat) (name : String) (factory : BeanLabel) (product : Value)
      (holder : Option Value)

/-- All that changes. -/
structure World where
  /-- The states of the registries, by index. -/
  states : List State := []
  /-- How many beans were made so far. -/
  made : Nat := 0
  /-- How often factories that count were asked. -/
  tallies : List (BeanLabel × Nat) := []
  /-- A raw value that is resolved for its own sake. -/
  bench : RawValue := .null
  /-- What was done, newest first. -/
  journal : List Event := []
  deriving Inhabited

namespace World

/-- Puts a state at an index, with empty states before it where there are none. -/
def putState : List State → Nat → State → List State
  | [], 0, state => [state]
  | [], index + 1, state => {} :: putState [] index state
  | _ :: rest, 0, state => state :: rest
  | first :: rest, index + 1, state => first :: putState rest index state

theorem getElem?_putState (states : List State) (index other : Nat) (state : State) :
    ((putState states index state)[other]?).getD {} =
      if other = index then state else (states[other]?).getD {} := by
  induction states generalizing index other with
  | nil =>
    induction index generalizing other with
    | zero => cases other <;> simp [putState]
    | succ index ih =>
      cases other with
      | zero => simp [putState]
      | succ other => simpa [putState] using ih other
  | cons first rest ih =>
    cases index with
    | zero => cases other <;> simp [putState]
    | succ index =>
      cases other with
      | zero => simp [putState]
      | succ other => simpa [putState] using ih index other

/-- The state of a registry. -/
def state (world : World) (index : Nat) : State :=
  (world.states[index]?).getD {}

/-- The world with another state of a registry. -/
def withState (world : World) (index : Nat) (state : State) : World :=
  { world with states := putState world.states index state }

@[simp] theorem state_withState (world : World) (index other : Nat) (state : State) :
    (world.withState index state).state other = if other = index then state else world.state other :=
  getElem?_putState world.states index other state

/-- The world with one more thing done. -/
def noting (world : World) (event : Event) : World :=
  { world with journal := event :: world.journal }

/-- How often a factory was asked. -/
def tally (world : World) (factory : BeanLabel) : Nat :=
  (world.tallies.lookup factory).getD 0

/-- The world in which a factory was asked once more. -/
def withTally (world : World) (factory : BeanLabel) : World :=
  { world with
    tallies := (factory, world.tally factory + 1) ::
      world.tallies.filter fun entry => entry.1 != factory }

/-- The world that keeps what was learnt about a part of something. -/
def learn (world : World) (owner : Owner) (steps : List Step) (lesson : Lesson) : World :=
  match owner with
  | .nothing => world
  | .bench => { world with bench := world.bench.learn lesson steps }
  | .merged index name =>
    let state := world.state index
    world.withState index
      { state with merged := state.merged.adjust name (DefinitionOf.learn lesson steps) }

end World

/-! ## Work -/

/-- A computation on the world that may fail. -/
abbrev Work (α : Type) := ExceptT Stop (StateM World) α

namespace Work

variable {α : Type}

/-- Fails. -/
def fail (failure : Failure) : Work α :=
  throw (.failure failure)

/-- Takes a result or fails. -/
def ofExcept : Except Failure α → Work α
  | .ok value => pure value
  | .error failure => fail failure

/-- Takes a result or stops. -/
def ofStop : Except Stop α → Work α
  | .ok value => pure value
  | .error stop => throw stop

/-- Does the work and gives its failure, if there is one, as a result. -/
def attempt (work : Work α) : Work (Except Failure α) := fun world =>
  match work world with
  | (.ok value, after) => (.ok (.ok value), after)
  | (.error (.failure failure), after) => (.ok (.error failure), after)
  | (.error .tooDeep, after) => (.error .tooDeep, after)

/-- Does the work and rewords its failure, if there is one. -/
def explain (reword : Failure → Failure) (work : Work α) : Work α := fun world =>
  match work world with
  | (.error (.failure failure), after) => (.error (.failure (reword failure)), after)
  | result => result

/-- Does the work and then changes the world, whatever came of the work. -/
def endingWith (work : Work α) (change : World → World) : Work α := fun world =>
  let (result, after) := work world
  (result, change after)

/-- The state of a registry. -/
def state (registry : Registry) : Work State := do
  return (← get).state registry.index

/-- Changes the state of a registry. -/
def update (registry : Registry) (change : State → State) : Work Unit :=
  modify fun world => world.withState registry.index (change (world.state registry.index))

/-- Changes the state of a registry, or fails and leaves it as it is. -/
def register (registry : Registry) (change : State → Except Failure State) : Work Unit := do
  let changed ← ofExcept (change (← state registry))
  update registry fun _ => changed

/-- Notes that something was done. -/
def note (event : Event) : Work Unit :=
  modify fun world => world.noting event

end Work

/-! ## Registering -/

namespace Registry

/-- Takes a definition. -/
def define (registry : Registry) (name : String) (definition : Definition) : Work Unit :=
  Work.register registry (State.define registry.settings name definition)

/-- Takes an alias for a name. -/
def addAlias (registry : Registry) (name shorthand : String) : Work Unit :=
  Work.register registry (State.addAlias registry.settings name shorthand)

/-- Takes a definition and aliases for its name, one after the other. What was taken before an alias
is refused stays. -/
def defineWithAliases (registry : Registry) (name : String) (shorthands : List String)
    (definition : Definition) : Work Unit := do
  registry.define name definition
  shorthands.forM fun shorthand => registry.addAlias name shorthand

/-- Takes a definition out. -/
def remove (registry : Registry) (name : String) : Work Unit :=
  Work.register registry (State.remove name)

/-- Takes a ready-made singleton. -/
def addSingleton (registry : Registry) (name : String) (value : Value) : Work Unit :=
  Work.register registry (State.addSingleton name value)

/-- Notes that one bean depends on another. -/
def noteDependent (registry : Registry) (name dependent : String) : Work Unit :=
  Work.update registry fun state => state.noteDependent name dependent

/-- Notes that a bean was made for another one. -/
def noteContained (registry : Registry) (inner outer : String) : Work Unit :=
  Work.update registry fun state => state.noteContained inner outer

end Registry

/-! ## Looking up names along a chain -/

/-- Whether a name stands for a bean of some container of the chain. Every container follows its own
aliases from the name as it was given. -/
def World.knows (world : World) (chain : Chain) (name : String) : Bool :=
  chain.any fun registry => (world.state registry.index).containsLocal name

end Injector
