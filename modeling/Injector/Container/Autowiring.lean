import Injector.Container.Candidates
import Injector.Value.Equality

/-!
# Selection and autowiring

Having the bean of a type, and the beans for a dependency. Both look at the nearest container of a
chain that has any candidate; how a bean is had by its name is a parameter, `fetch`.

Autowiring reports the names of the beans it had even if it fails at a later one.
-/

namespace Injector

/-- Has a bean by its name. -/
abbrev Fetch := Chain → String → Work Value

/-! ## One bean of a type -/

/-- The bean of a name, which has to be of a type. -/
def fetchOfType (fetch : Fetch) (chain : Chain) (name : String) (type : ValueType) : Work Value := do
  let value ← fetch chain name
  if type.accepts value then pure value
  else Work.fail (.notOfRequiredType name type.name value.kind)

/-- The candidate that is meant, if there is only one or one is preferred. -/
def chooseOne (registry : Registry) (type : ValueType) (candidates : List String)
    (placeName : Option String) : Work String := do
  match candidates with
  | [only] => pure only
  | _ =>
    match (← Work.state registry).chooseCandidate candidates placeName with
    | some chosen => pure chosen
    | none => Work.fail (.noUniqueBean type.name candidates)

/-- The one bean of a type in the nearest container that has any, with its name. -/
def fetchNamed (fetch : Fetch) : Chain → ValueType → Work (String × Value)
  | [], type => Work.fail (.noSuchBeanOfType type.name)
  | registry :: ancestors, type => do
    let candidates ← namesForType registry ancestors type
    if candidates.isEmpty then fetchNamed fetch ancestors type
    else
      let chosen ← chooseOne registry type candidates none
      let value ← fetch (registry :: ancestors) chosen
      pure (chosen, value)

/-! ## The beans for a dependency -/

/-- Has the beans of the given names one after the other, up to the first that fails. -/
def fetchAll (fetch : Fetch) (chain : Chain) :
    List String → Work (List (String × Value) × Except Failure Unit)
  | [] => pure ([], .ok ())
  | name :: rest => do
    match ← Work.attempt (fetch chain name) with
    | .error failure => pure ([], .error failure)
    | .ok value =>
      let (others, outcome) ← fetchAll fetch chain rest
      pure ((name, value) :: others, outcome)

/-- The candidates of a container for a dependency of a bean: not the bean itself, and only the
qualified one if there is a qualifier. -/
def candidatesFor (registry : Registry) (ancestors : Chain) (dependency : Dependency)
    (requester : String) : Work (List String) := do
  let names ← namesForType registry ancestors dependency.type
  let others := names.filter fun name => name != requester
  match dependency.qualifier with
  | none => pure others
  | some qualifier =>
    let qualified := (← Work.state registry).canonicalName qualifier
    pure (others.filter fun name => name == qualified)

/-- What is injected for a dependency if these are its candidates, and the names of the beans had. -/
def inject (fetch : Fetch) (registry : Registry) (ancestors : Chain) (dependency : Dependency)
    (converter : Converter) (candidates : List String) :
    Work (List String × Except Failure Value) := do
  let chain := registry :: ancestors
  match dependency.shape with
  | .single =>
    match ← Work.attempt (chooseOne registry dependency.type candidates dependency.name) with
    | .error failure => pure ([], .error failure)
    | .ok chosen =>
      match ← Work.attempt (fetch chain chosen) with
      | .error failure => pure ([], .error failure)
      | .ok value => pure ([chosen], converter value dependency.type)
  | .list =>
    let (had, outcome) ← fetchAll fetch chain candidates
    pure (had.map Prod.fst, outcome.map fun _ => .list (had.map Prod.snd))
  | .map =>
    let (had, outcome) ← fetchAll fetch chain candidates
    pure (had.map Prod.fst,
      outcome.map fun _ => .mapOf (had.map fun (name, value) => (.text name, value)))

/-- What is injected for a dependency of a bean, and the names of the beans had. -/
def autowire (fetch : Fetch) : Chain → Dependency → String → Converter →
    Work (List String × Except Failure Value)
  | [], dependency, _, _ =>
    pure ([], if dependency.required then .error (.noSuchBeanOfType dependency.type.name) else .ok .null)
  | registry :: ancestors, dependency, requester, converter => do
    let candidates ← candidatesFor registry ancestors dependency requester
    if candidates.isEmpty then autowire fetch ancestors dependency requester converter
    else inject fetch registry ancestors dependency converter candidates

end Injector
