import Injector.Definition.Basic

/-!
# The state of a container

What one container holds: definitions, aliases, the singletons made or registered so far, and what it
has noted about which bean depends on which. Everything here belongs to a single container and is
found without asking its parents.

## Names

A name may be an alias, and may be marked to ask for a factory instead of its product. `plainName`
takes the marks off; `canonicalName` follows aliases. Aliases may form a cycle, so the number of steps
is limited to one more than there are aliases, which is enough to reach the end of any chain.
-/

namespace Injector

/-! ## Names -/

/-- The mark before a name that asks for the factory itself. -/
def factoryMark : String := "&"

/-- A name without marks before it. -/
def plainName (name : String) : String :=
  String.ofList (name.toList.dropWhile (· = '&'))

/-- Whether a name asks for the factory itself. -/
def asksForFactory (name : String) : Bool :=
  name.toList.head? == some '&'

/-- Nothing is taken off a name without a mark before it. -/
theorem plainName_of_plain {name : String} (h : asksForFactory name = false) :
    plainName name = name := by
  have hlist : name.toList.dropWhile (· = '&') = name.toList := by
    unfold asksForFactory at h
    cases hname : name.toList with
    | nil => rfl
    | cons first rest =>
      rw [hname] at h
      rw [List.dropWhile_cons_of_neg]
      simpa using h
  unfold plainName
  rw [hlist, String.ofList_toList]

/-! ## State -/

/-- What a container holds. -/
structure State where
  definitions : Table Definition := .empty
  /-- The name that each alias stands for. -/
  aliases : Table String := .empty
  /-- The merged definitions that are kept until a definition changes. -/
  merged : Table Definition := .empty
  singletons : Table Value := .empty
  /-- The beans that are being created. -/
  inCreation : NameSet := .empty
  /-- The products of factories that are kept, by the name of the factory. -/
  products : Table Value := .empty
  /-- For each bean, the beans that depend on it. -/
  dependents : Table NameSet := .empty
  /-- For each bean, the beans that it depends on. -/
  dependencies : Table NameSet := .empty
  /-- For each bean, the nested beans made for it. -/
  contained : Table NameSet := .empty
  deriving Inhabited

namespace State

/-- Follows aliases for at most the given number of steps. -/
def follow (aliases : Table String) : Nat → String → String
  | 0, name => name
  | steps + 1, name =>
    match aliases.find? name with
    | some target => follow aliases steps target
    | none => name

/-- The name that a name stands for in the end. -/
def canonicalName (state : State) (name : String) : String :=
  follow state.aliases (state.aliases.size + 1) name

theorem follow_of_end {aliases : Table String} {name : String} (h : aliases.find? name = none) :
    ∀ steps, follow aliases steps name = name
  | 0 => rfl
  | steps + 1 => by rw [follow, h]

/-- A name that is no alias stands for itself. -/
theorem canonicalName_of_end {state : State} {name : String} (h : state.aliases.find? name = none) :
    state.canonicalName name = name :=
  follow_of_end h _

/-- The aliases that stand for exactly this name. -/
def aliasesOf (state : State) (name : String) : List String :=
  (state.aliases.entries.filter fun entry => entry.2 == name).map Prod.fst

/-- The definition registered for a name or for what it stands for. -/
def definition? (state : State) (name : String) : Option Definition :=
  state.definitions.find? (state.canonicalName name)

/-- Whether a name, marked or not, stands for a definition or a singleton of this container. -/
def containsLocal (state : State) (name : String) : Bool :=
  let beanName := state.canonicalName (plainName name)
  state.singletons.contains beanName || state.definitions.contains beanName

/-! ## Free names -/

/-- Whether any bean is noted to depend on exactly this name. -/
def hasDependents (state : State) (name : String) : Bool :=
  (state.dependents.find? name).any fun names => !names.isEmpty

/-- Whether a name is an alias, stands for a bean, or has beans depending on it. -/
def isNameInUse (state : State) (name : String) : Bool :=
  state.aliases.contains name || state.containsLocal name || state.hasDependents name

/-- The names tried for a nested bean: the name itself, and then the name with a number. -/
def numberedName (name : String) : Nat → String
  | 0 => name
  | count + 1 => name ++ "#" ++ Number.integerText (count + 1)

/-- How many different names can be in use among those tried for one bean: each of them is an alias
or has dependents, or becomes an alias or a bean's name when its marks are taken off. -/
def usedNamesBound (state : State) : Nat :=
  2 * state.aliases.size + state.dependents.size + state.singletons.size + state.definitions.size

/-- The first of the names tried for a nested bean that is not in use. -/
def freeName (state : State) (name : String) : String :=
  let count? := (List.range (state.usedNamesBound + 1)).find? fun count =>
    !state.isNameInUse (numberedName name count)
  numberedName name (count?.getD 0)

/-! ## Dependencies -/

/-- Adds a name to the set bound to another name. -/
def link (table : Table NameSet) (name member : String) : Table NameSet :=
  table.insert name (((table.find? name).getD .empty).insert member)

/-- Whether a name is in the set bound to another name. -/
def linked (table : Table NameSet) (name member : String) : Bool :=
  (table.find? name).any fun names => names.contains member

/-- Notes that one bean depends on another, which may be given by an alias. -/
def noteDependent (state : State) (name dependent : String) : State :=
  let beanName := state.canonicalName name
  if linked state.dependents beanName dependent then state
  else
    { state with
      dependents := link state.dependents beanName dependent
      dependencies := link state.dependencies dependent beanName }

/-- Notes that a bean was made for another one, which then also depends on it. -/
def noteContained (state : State) (inner outer : String) : State :=
  if linked state.contained outer inner then state
  else { state with contained := link state.contained outer inner }.noteDependent inner outer

/-- The names in the set bound to a name. -/
def linksOf (table : Table NameSet) (name : String) : List String :=
  ((table.find? name).map NameSet.names).getD []

/-- A link adds one name to one set. -/
theorem mem_linksOf_link (table : Table NameSet) (name member other wanted : String) :
    wanted ∈ linksOf (link table name member) other ↔
      (other = name ∧ wanted = member) ∨ wanted ∈ linksOf table other := by
  unfold linksOf link
  rw [Table.find?_insert]
  by_cases h : other = name
  · subst h
    cases table.find? other with
    | none => simp [NameSet.mem_names_insert]
    | some names => simp [NameSet.mem_names_insert]
  · simp [h]

/-- A link comes behind those that are there. -/
theorem prefix_linksOf_link (table : Table NameSet) (name member other : String) :
    linksOf table other <+: linksOf (link table name member) other := by
  unfold linksOf link
  rw [Table.find?_insert]
  split
  · next h =>
    rw [h]
    cases table.find? name with
    | none => exact List.nil_prefix
    | some names => exact names.prefix_insert member
  · exact List.prefix_refl _

/-- The beans noted to depend on a bean. -/
def dependentsOf (state : State) (name : String) : List String :=
  linksOf state.dependents (state.canonicalName name)

/-- The beans that a bean is noted to depend on. -/
def dependenciesOf (state : State) (name : String) : List String :=
  linksOf state.dependencies name

/-- The nested beans noted to be made for a bean. -/
def containedIn (state : State) (name : String) : List String :=
  linksOf state.contained name

/-- Whether a name can be reached over links from one of the pending names. Each name is left behind
once it was looked at: `unseen` are the bound names that were not. -/
def reaches (table : Table NameSet) (goal : String) : List String → List String → Bool
  | [], _ => false
  | name :: pending, unseen =>
    if _h : name ∈ unseen then
      let next := linksOf table name
      next.contains goal || reaches table goal (next ++ pending) (unseen.erase name)
    else reaches table goal pending unseen
termination_by pending unseen => pending.length + unseen.length + (unseen.flatMap (linksOf table)).length
decreasing_by
  · -- the names that become pending were counted with the one that is left behind
    have hperm := List.perm_cons_erase _h
    have hlinks := (hperm.flatMap_right (linksOf table)).length_eq
    have hunseen := hperm.length_eq
    rw [List.flatMap_cons, List.length_append] at hlinks
    rw [List.length_cons] at hunseen
    rw [List.length_append, List.length_cons]
    omega
  · rw [List.length_cons]
    omega

/-- Whether a bean depends on another one, directly or over others. -/
def isDependent (state : State) (name dependent : String) : Bool :=
  reaches state.dependents dependent [state.canonicalName name] state.dependents.keys

end State

end Injector
