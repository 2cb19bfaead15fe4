import Injector.Container.World
import Injector.Definition.Merge

/-!
# Merged definitions

A definition with a parent is completed by its parent's merged definition (`DefinitionOf.overlay`).
The parent's name is looked up in the same container first and in its ancestors next; a parent of the
very name of the bean is looked for in the ancestors alone.

Merging reads the world and does not change it. What it merged on the way is listed beside the result
(`Merged.additions`), and `Chain.mergedDefinition` keeps it. As a chain of parents either ends or
fails as a whole, nothing is ever kept of a merge that fails.

## Termination

Within one container, every definition is entered at most once: the names not entered yet are handed
on, and entering one takes it out. To an ancestor the chain of containers gets shorter.
-/

namespace Injector

/-- A merged definition, and what was merged to get it: by registry and name, ancestors first. -/
structure Merged where
  definition : Definition
  additions : List (Nat × String × Definition) := []

namespace State

/-- Completes a definition by its parent, which `near` finds in the same container and the ancestors,
and `above` in the ancestors alone. -/
def complete (state : State) (name : String) (definition : Definition)
    (containing : Option Definition) (near above : String → Except Failure Merged) :
    Except Failure Merged :=
  match definition.parent with
  | none => .ok { definition := definition.within containing }
  | some parentName =>
    let target := state.canonicalName parentName
    match if target = name then above target else near target with
    | .error cause =>
      .error (.invalidDefinition definition.resource (some name) (.unresolvedParent parentName cause))
    | .ok parent =>
      .ok { parent with definition := (parent.definition.overlay definition).within containing }

/-- The merged definition of a name, where `unentered` are the definitions that are not being merged
already. -/
def mergedFrom (state : State) (index : Nat) (above : String → Except Failure Merged)
    (unentered : List String) (name : String) : Except Failure Merged :=
  match state.merged.find? name with
  | some definition => .ok { definition }
  | none =>
    match state.definitions.find? name with
    | none => above name
    | some definition =>
      if _h : name ∈ unentered then
        match state.complete name definition none
            (state.mergedFrom index above (unentered.erase name)) above with
        | .error failure => .error failure
        | .ok merged =>
          .ok { merged with additions := merged.additions ++ [(index, name, merged.definition)] }
      else .error (.invalidDefinition definition.resource (some name) (.circularParent name))
termination_by unentered.length
decreasing_by
  have hpos : 0 < unentered.length := List.length_pos_of_mem _h
  have hlen := List.length_erase_of_mem _h
  omega

end State

namespace World

/-- The merged definition of a name in a chain of containers. -/
def mergedIn (world : World) : Chain → String → Except Failure Merged
  | [], name => .error (.noSuchBean name)
  | registry :: ancestors, name =>
    let state := world.state registry.index
    state.mergedFrom registry.index (world.mergedIn ancestors) state.definitions.keys
      (state.canonicalName name)

/-- The merged form of a definition that may be nested in another one. -/
def mergedNested (world : World) (chain : Chain) (name : String) (definition : Definition)
    (containing : Option Definition) : Except Failure Merged :=
  match chain with
  | [] => .error (.noSuchBean name)
  | registry :: ancestors =>
    let state := world.state registry.index
    let above := world.mergedIn ancestors
    state.complete name definition containing
      (state.mergedFrom registry.index above state.definitions.keys) above

/-- The world that keeps merged definitions where none are kept yet. -/
def keepMerged (world : World) (additions : List (Nat × String × Definition)) : World :=
  additions.foldl (fun world (index, name, definition) =>
    let state := world.state index
    world.withState index { state with merged := state.merged.insertNew name definition }) world

end World

/-- Takes a merged definition and keeps what was merged for it. -/
def Work.takeMerged (found : World → Except Failure Merged) : Work Definition := do
  let world ← get
  let merged ← Work.ofExcept (found world)
  set (world.keepMerged merged.additions)
  pure merged.definition

/-- The merged definition of a name; it is kept. -/
def mergedDefinition (chain : Chain) (name : String) : Work Definition :=
  Work.takeMerged fun world => world.mergedIn chain name

/-- The merged form of a definition that may be nested in another one. Only the merged forms of its
parents are kept. -/
def mergedNestedDefinition (chain : Chain) (name : String) (definition : Definition)
    (containing : Option Definition) : Work Definition :=
  Work.takeMerged fun world => world.mergedNested chain name definition containing

end Injector
