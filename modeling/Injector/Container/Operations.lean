import Injector.Container.Creation

/-!
# Operations of a container

What can be asked of a container from outside. Everything takes the depth to which requests may be
nested; see `serve`.
-/

namespace Injector

namespace Chain

variable (depth : Nat) (chain : Chain)

/-- The bean of a name, or its product if it is a factory. -/
def bean (name : String) : Work Value :=
  serve depth (.bean chain name)

/-- The bean of a name, which has to be of a type. -/
def beanOfType (name : String) (type : ValueType) : Work Value :=
  fetchOfType (serve depth).fetch chain name type

/-- The one bean of a type, with its name. -/
def namedBean (type : ValueType) : Work (String × Value) :=
  fetchNamed (serve depth).fetch chain type

/-- The one bean of a type. -/
def beanByType (type : ValueType) : Work Value := do
  return (← namedBean depth chain type).2

/-- What is injected for a dependency of a bean, and the names of the beans had. -/
def injection (dependency : Dependency) (requester : String) (converter : Converter) :
    Work (List String × Except Failure Value) :=
  autowire (serve depth).fetch chain dependency requester converter

/-- A new bean by a definition as it is, under a name. -/
def create (name : String) (definition : Definition) : Work Value :=
  serve depth (.creation chain name definition)

/-- Makes the singletons that are not lazy, in the order of their definitions. Of a class of factories
the factory alone is made, not its product. -/
def makeSingletons (registry : Registry) (ancestors : Chain) : Work Unit := do
  (← Work.state registry).definitions.keys.forM fun name => do
    let merged ← mergedDefinition (registry :: ancestors) name
    if merged.isSingleton && !merged.lazy then
      let isFactory := merged.className.any fun name => (registry.classes.productType? name).isSome
      discard (bean depth (registry :: ancestors) (if isFactory then factoryMark ++ name else name))

/-- Resolves a raw value for its own sake, again and again: each time it is the raw value with what
was learnt so far. A failure ends one time and not the rest. -/
def resolveBench (resolution : Resolution) (path : ArgumentPath) :
    Nat → Work (List (Except Failure Value))
  | 0 => pure []
  | times + 1 => do
    let result ← Work.attempt (resolution.resolve path [] (← get).bench)
    return result :: (← resolveBench resolution path times)

end Chain

end Injector
