import Injector.Proofs.Merging.Descent
import Injector.Proofs.Names.AliasCycles

/-!
# What asking leaves as it is

Whatever a container does for a request, and whatever comes of it: definitions and aliases stay as they
are, what was kept stays kept, links only grow, and afterwards the same beans are being created as
before (`State.Framed`).

A bean is kept as a singleton only if its constructor has just made it, once (`Fate`). For the bean of a
name itself, no constructor is called at all if its singleton exists already, or if it is being created.

Both together (`World.Advances`) pass from one piece of work to the next, and whatever is done for every
bean keeps them (`housekeeping_advancing`).
-/

namespace Injector

/-! ## One state -/

/-- Every link is still there, in the same order, and new ones come behind. -/
structure State.LinksGrow (table after : Table NameSet) : Prop where
  keys : table.keys <+: after.keys
  names : ∀ name, linksOf table name <+: linksOf after name

/-- What the work of a container leaves of a state. -/
structure State.Framed (state after : State) : Prop where
  sources : state.SameSources after
  inCreation : after.inCreation = state.inCreation
  singletons : state.singletons.entries <+: after.singletons.entries
  products : state.products.entries <+: after.products.entries
  dependents : State.LinksGrow state.dependents after.dependents
  dependencies : State.LinksGrow state.dependencies after.dependencies
  contained : State.LinksGrow state.contained after.contained
  /-- Merged definitions stay kept, but for notes. -/
  merged : ∀ name definition, state.merged.find? name = some definition →
    ∃ now, after.merged.find? name = some now ∧ now.bare = definition.bare

namespace State

theorem LinksGrow.refl (table : Table NameSet) : LinksGrow table table where
  keys := List.prefix_refl _
  names _ := List.prefix_refl _

theorem LinksGrow.trans {first second third : Table NameSet} (h : LinksGrow first second)
    (h' : LinksGrow second third) : LinksGrow first third where
  keys := h.keys.trans h'.keys
  names name := (h.names name).trans (h'.names name)

theorem LinksGrow.link (table : Table NameSet) (name member : String) :
    LinksGrow table (link table name member) where
  keys := by
    unfold State.link
    rw [Table.keys_insert]
    split
    · exact List.prefix_refl _
    · exact List.prefix_append _ _
  names := prefix_linksOf_link table name member

namespace Framed

variable {state after : State}

theorem refl (state : State) : Framed state state where
  sources := ⟨rfl, rfl⟩
  inCreation := rfl
  singletons := List.prefix_refl _
  products := List.prefix_refl _
  dependents := .refl _
  dependencies := .refl _
  contained := .refl _
  merged _ definition hkept := ⟨definition, hkept, rfl⟩

theorem trans (first second third : State) (h : Framed first second) (h' : Framed second third) :
    Framed first third where
  sources := ⟨h'.sources.1.trans h.sources.1, h'.sources.2.trans h.sources.2⟩
  inCreation := h'.inCreation.trans h.inCreation
  singletons := h.singletons.trans h'.singletons
  products := h.products.trans h'.products
  dependents := h.dependents.trans h'.dependents
  dependencies := h.dependencies.trans h'.dependencies
  contained := h.contained.trans h'.contained
  merged name definition hkept := by
    obtain ⟨between, hbetween, hbare⟩ := h.merged name definition hkept
    obtain ⟨now, hnow, hbare'⟩ := h'.merged name between hbetween
    exact ⟨now, hnow, hbare'.trans hbare⟩

theorem noteDependent (state : State) (name dependent : String) :
    Framed state (state.noteDependent name dependent) := by
  unfold State.noteDependent
  dsimp only
  split
  · exact refl state
  · exact { refl state with dependents := .link _ _ _, dependencies := .link _ _ _ }

theorem noteContained (state : State) (inner outer : String) :
    Framed state (state.noteContained inner outer) := by
  unfold State.noteContained
  split
  · exact refl state
  · have hcontained : Framed state { state with contained := link state.contained outer inner } :=
      { refl state with contained := .link _ _ _ }
    exact trans _ _ _ hcontained (noteDependent _ _ _)

theorem keepMerged (state : State) (name : String) (definition : Definition) :
    Framed state { state with merged := state.merged.insertNew name definition } where
  __ := refl state
  merged other kept hkept := by
    refine ⟨kept, ?_, rfl⟩
    dsimp only
    rw [Table.find?_insertNew]
    split
    · next he =>
      rw [← he, hkept]
      rfl
    · exact hkept

theorem learn (state : State) (name : String) (steps : List Step) (lesson : Lesson) :
    Framed state
      { state with merged := state.merged.adjust name (DefinitionOf.learn lesson steps) } where
  __ := refl state
  merged other kept hkept := by
    dsimp only
    rw [Table.find?_adjust]
    split
    · rw [hkept]
      exact ⟨_, rfl, DefinitionOf.bare_learn lesson steps kept⟩
    · exact ⟨kept, hkept, rfl⟩

theorem keepSingleton (state : State) (name : String) (value : Value) :
    Framed state { state with singletons := state.singletons.insertNew name value } where
  __ := refl state
  singletons := Table.prefix_insertNew _ _ _

theorem keepProduct (state : State) (name : String) (value : Value) :
    Framed state { state with products := state.products.insertNew name value } where
  __ := refl state
  products := Table.prefix_insertNew _ _ _

/-- What is done while a bean counts as being created leaves of the state what it does without. -/
theorem guarded {name : String} (hnew : state.inCreation.contains name = false)
    (h : Framed { state with inCreation := state.inCreation.insert name } after) :
    Framed state { after with inCreation := after.inCreation.erase name } where
  __ := h
  inCreation := by
    dsimp only
    rw [h.inCreation]
    exact NameSet.erase_insert hnew

end Framed

end State

theorem World.AliasesUndefined.of_sameSources {world after : World} (h : world.AliasesUndefined)
    (hsources : Statewise State.SameSources world after) : after.AliasesUndefined := by
  intro index name halias
  rw [(hsources index).1]
  rw [(hsources index).2] at halias
  exact h index name halias

/-! ## The bean of one name -/

/-- The call of a constructor for the bean of a name itself. -/
def Event.construction? (index : Nat) (name : String) : Event → Option Construction
  | .constructed construction =>
    if construction.owner = .merged index name then some construction else none
  | _ => none

/-- The calls of constructors for the bean of a name itself, latest first. -/
def attempts (index : Nat) (name : String) (journal : List Event) : List Construction :=
  journal.filterMap (Event.construction? index name)

/-- What was made by the calls of constructors for the bean of a name itself, latest first. -/
def instances (index : Nat) (name : String) (journal : List Event) : List Value :=
  (attempts index name journal).filterMap Construction.made

theorem attempts_append (index : Nat) (name : String) (new old : List Event) :
    attempts index name (new ++ old) = attempts index name new ++ attempts index name old :=
  List.filterMap_append

theorem instances_append (index : Nat) (name : String) (new old : List Event) :
    instances index name (new ++ old) = instances index name new ++ instances index name old := by
  unfold instances
  rw [attempts_append, List.filterMap_append]

theorem instances_eq_nil {index : Nat} {name : String} {journal : List Event}
    (h : attempts index name journal = []) : instances index name journal = [] := by
  unfold instances
  rw [h]
  rfl

/-- The constructor of the class accepted the inputs, and the bean was made as it said. -/
def Construction.Succeeded (family : Family) (construction : Construction) : Prop :=
  ∃ (member : family.Member) (constructor : Constructor) (blueprint : Blueprint) (world : World),
    member.registry.index = construction.registry ∧
    member.registry.classes.constructor? construction.className = some constructor ∧
    constructor construction.inputs = .ok blueprint ∧
    construction.made = some (world.makeBean blueprint).1

/-- One of the new events is that the constructor of a class made the value for the bean of the name
itself, and the container keeps a merged definition of the name with that class, which says that there
is one shared instance. -/
structure Shares (family : Family) (after : World) (new : List Event) (index : Nat) (name : String)
    (value : Value) : Prop where
  defined : (after.state index).definitions.contains name = true
  made : ∃ definition, (after.state index).merged.find? name = some definition ∧
    definition.isSingleton = true ∧
    ∃ construction ∈ attempts index name new,
      construction.registry = index ∧ definition.className = some construction.className ∧
      construction.Succeeded family ∧ construction.made = some value

/-- What becomes of the singleton of a name while new events come about. -/
inductive Fate (family : Family) (world after : World) (new : List Event) (index : Nat)
    (name : String) : Prop
  /-- It stays as it is. Its constructor is not called if it exists or is being created, and makes
  nothing unless every request gets a new instance. -/
  | unchanged (hsame : (after.state index).singletons.find? name =
        (world.state index).singletons.find? name)
      (hidle : (world.state index).singletons.contains name = true ∨
        (world.state index).inCreation.contains name = true → attempts index name new = [])
      (hmade : instances index name new = [] ∨
        ∃ definition, (after.state index).merged.find? name = some definition ∧
          definition.isSingleton = false)
  /-- It is made, once, and kept. -/
  | made (value : Value) (hnone : (world.state index).singletons.find? name = none)
      (hidle : (world.state index).inCreation.contains name = false)
      (hkept : (after.state index).singletons.find? name = some value)
      (honce : instances index name new = [value])
      (hshares : Shares family after new index name value)

/-- What asking makes of the world. -/
structure World.Advances (family : Family) (world after : World) : Prop where
  framed : Statewise State.Framed world after
  fates : ∃ new, after.journal = new ++ world.journal ∧
    ∀ index name, Fate family world after new index name

variable {family : Family}

theorem scope_eq_of_bare {definition now : Definition} (h : now.bare = definition.bare) :
    now.isSingleton = definition.isSingleton := by
  show now.bare.isSingleton = definition.bare.isSingleton
  rw [h]

theorem className_eq_of_bare {definition now : Definition} (h : now.bare = definition.bare) :
    now.className = definition.className := by
  show now.bare.className = definition.bare.className
  rw [h]

/-- What is shared stays shared. -/
theorem Shares.mono {between after : World} {new more : List Event} {index : Nat} {name : String}
    {value : Value} (h : Shares family between new index name value)
    (hframed : Statewise State.Framed between after)
    (hsub : attempts index name new ⊆ attempts index name more) :
    Shares family after more index name value where
  defined := by
    rw [(hframed index).sources.1]
    exact h.defined
  made := by
    obtain ⟨definition, hkept, hsingleton, construction, hmem, hindex, hclass, hrest⟩ := h.made
    obtain ⟨now, hnow, hbare⟩ := (hframed index).merged name definition hkept
    refine ⟨now, hnow, ?_, construction, hsub hmem, hindex, ?_, hrest⟩
    · rw [scope_eq_of_bare hbare, hsingleton]
    · rw [className_eq_of_bare hbare, hclass]

/-- The definition that is kept of a shared bean says that there is one shared instance. -/
theorem Shares.isSingleton {after : World} {new : List Event} {index : Nat} {name : String}
    {value : Value} {now : Definition} (h : Shares family after new index name value)
    (hkept : (after.state index).merged.find? name = some now) : now.isSingleton = true := by
  obtain ⟨definition, hdefinition, hsingleton, -⟩ := h.made
  obtain rfl := Option.some.inj (hkept.symm.trans hdefinition)
  exact hsingleton

/-- While the bean of a name is being created, its constructor is not called, and none is kept that was
not kept before. -/
theorem Fate.of_creating {world after : World} {new : List Event} {index : Nat} {name : String}
    (h : Fate family world after new index name)
    (hcreating : (world.state index).inCreation.contains name = true) :
    attempts index name new = [] ∧
      (after.state index).singletons.find? name = (world.state index).singletons.find? name := by
  cases h with
  | unchanged hsame hidle _ => exact ⟨hidle (.inr hcreating), hsame⟩
  | made _ _ hidle =>
    rw [hcreating] at hidle
    cases hidle

/-- One thing becomes of a singleton, and then another. -/
theorem Fate.trans {world between after : World} {new more : List Event} {index : Nat} {name : String}
    (hframed : Statewise State.Framed world between) (hframed' : Statewise State.Framed between after)
    (h : Fate family world between new index name)
    (h' : Fate family between after more index name) :
    Fate family world after (more ++ new) index name := by
  have hcreation := (hframed index).inCreation
  cases h with
  | unchanged hsame hidle hmade =>
    cases h' with
    | unchanged hsame' hidle' hmade' =>
      refine .unchanged (hsame'.trans hsame) (fun hbusy => ?_) ?_
      · rw [attempts_append, hidle hbusy, hidle' ?_]
        · rfl
        · rw [Table.contains, hsame, hcreation]
          exact hbusy
      · rw [instances_append]
        rcases hmade' with hnone' | hprototype'
        · rcases hmade with hnone | ⟨definition, hkept, hprototype⟩
          · rw [hnone, hnone']
            exact Or.inl rfl
          · obtain ⟨now, hnow, hbare⟩ := (hframed' index).merged name definition hkept
            exact Or.inr ⟨now, hnow, (scope_eq_of_bare hbare).trans hprototype⟩
        · exact Or.inr hprototype'
    | made value hnone hidle' hkept honce hshares =>
      have hnothing : instances index name new = [] := by
        rcases hmade with hnothing | ⟨definition, hprototype, hscope⟩
        · exact hnothing
        · -- there is one shared instance, so the definition does not ask for new ones
          obtain ⟨now, hnow, hbare⟩ := (hframed' index).merged name definition hprototype
          have hsingleton := hshares.isSingleton hnow
          rw [scope_eq_of_bare hbare, hscope] at hsingleton
          cases hsingleton
      refine .made value (hsame ▸ hnone) (hcreation ▸ hidle') hkept ?_ ?_
      · rw [instances_append, honce, hnothing]
        rfl
      · refine hshares.mono (Statewise.refl State.Framed.refl after) ?_
        rw [attempts_append]
        exact List.subset_append_left _ _
  | made value hnone hidle hkept honce hshares =>
    -- what is kept is not made a second time
    cases h' with
    | unchanged hsame' hidle' hmade' =>
      have hnothing : attempts index name more = [] :=
        hidle' (Or.inl (Table.contains_of_find? hkept))
      refine .made value hnone hidle (hsame'.trans hkept) ?_ ?_
      · rw [instances_append, instances_eq_nil hnothing, honce]
        rfl
      · refine hshares.mono hframed' ?_
        rw [attempts_append]
        exact List.subset_append_right _ _
    | made value' hnone' =>
      rw [hkept] at hnone'
      cases hnone'

namespace World.Advances

variable {world after : World}

/-- Work that calls no constructor for the bean of a name itself, and keeps no singleton. -/
theorem of_quiet (hframed : Statewise State.Framed world after)
    (hsingletons : ∀ index, (after.state index).singletons = (world.state index).singletons)
    (new : List Event) (hjournal : after.journal = new ++ world.journal)
    (hnew : ∀ index name, attempts index name new = []) : Advances family world after where
  framed := hframed
  fates := by
    refine ⟨new, hjournal, fun index name => ?_⟩
    refine .unchanged ?_ (fun _ => hnew index name) (Or.inl (instances_eq_nil (hnew index name)))
    rw [hsingletons]

theorem refl (family : Family) (world : World) : Advances family world world :=
  of_quiet (Statewise.refl State.Framed.refl world) (fun _ => rfl) [] rfl fun _ _ => rfl

theorem trans {between : World} (h : Advances family world between)
    (h' : Advances family between after) : Advances family world after where
  framed := Statewise.trans State.Framed.trans _ _ _ h.framed h'.framed
  fates := by
    obtain ⟨new, hjournal, hfate⟩ := h.fates
    obtain ⟨more, hjournal', hfate'⟩ := h'.fates
    refine ⟨more ++ new, ?_, fun index name => ?_⟩
    · rw [hjournal', hjournal, List.append_assoc]
    · exact Fate.trans h.framed h'.framed (hfate index name) (hfate' index name)

/-- A change of one state that leaves its singletons as they are. -/
theorem of_withState {index : Nat} {state : State} (hframed : (world.state index).Framed state)
    (hsingletons : state.singletons = (world.state index).singletons) :
    Advances family world (world.withState index state) := by
  refine of_quiet (Statewise.withState State.Framed.refl hframed) (fun other => ?_) [] rfl fun _ _ => rfl
  rw [state_withState]
  split
  · next he => rw [he, hsingletons]
  · rfl

/-- A change that leaves all states as they are. -/
theorem of_states (hstates : after.states = world.states) (new : List Event)
    (hjournal : after.journal = new ++ world.journal)
    (hnew : ∀ index name, attempts index name new = []) : Advances family world after := by
  have hstate : ∀ index, after.state index = world.state index := by
    intro index
    unfold state
    rw [hstates]
  refine of_quiet (fun index => ?_) (fun index => ?_) new hjournal hnew
  · rw [hstate]
    exact .refl _
  · rw [hstate]

theorem noting {event : Event} (h : ∀ index name, event.construction? index name = none) :
    Advances family world (world.noting event) := by
  refine of_states rfl [event] rfl fun index name => ?_
  unfold attempts
  rw [List.filterMap_cons, h]
  rfl

theorem keepMerged (additions : List (Nat × String × Definition)) (world : World) :
    Advances family world (world.keepMerged additions) := by
  refine of_quiet ?_ ?_ [] (World.journal_keepMerged additions world) fun _ _ => rfl
  · exact Statewise.keepMerged State.Framed.refl State.Framed.trans State.Framed.keepMerged additions
      world
  · exact World.singletons_keepMerged additions world

theorem aliasesUndefined (h : Advances family world after) (hundefined : world.AliasesUndefined) :
    after.AliasesUndefined :=
  hundefined.of_sameSources fun index => (h.framed index).sources

end World.Advances

/-! ## Housekeeping -/

/-- Work that goes on from a world in which no alias is defined makes of it what asking makes. -/
def Work.Advancing (family : Family) {α : Type} (work : Work α) : Prop :=
  work.Keeps fun world after => world.AliasesUndefined → world.Advances family after

theorem advancing_refl (family : Family) (world : World) :
    world.AliasesUndefined → world.Advances family world :=
  fun _ => .refl family world

theorem advancing_trans (family : Family) (world between after : World)
    (h : world.AliasesUndefined → world.Advances family between)
    (h' : between.AliasesUndefined → between.Advances family after) :
    world.AliasesUndefined → world.Advances family after :=
  fun hundefined => (h hundefined).trans (h' ((h hundefined).aliasesUndefined hundefined))

theorem Work.compositional_advancing (family : Family) :
    Work.Compositional fun _ work => work.Advancing family :=
  Work.compositional_keeps (advancing_refl family) (advancing_trans family)

/-- **Housekeeping calls no constructors.** -/
theorem housekeeping_advancing (family : Family) :
    Housekeeping family fun _ work => work.Advancing family where
  toComposable := (Work.compositional_advancing family).toComposable
  named _ _ _ _ _ := .noting fun _ _ => rfl
  learn owner steps lesson world _ := by
    cases owner with
    | nothing => exact .refl family world
    | bench => exact .of_states rfl [] rfl fun _ _ => rfl
    | merged index name => exact .of_withState (.learn _ name steps lesson) rfl
  noteDependent _ name dependent := Work.keeps_update fun world _ => by
    refine .of_withState (.noteDependent _ name dependent) ?_
    obtain ⟨_, _, heq⟩ := Work.noteDependent_eq (world.state _) name dependent
    rw [heq]
  noteContained _ inner outer := Work.keeps_update fun world _ => by
    refine .of_withState (.noteContained _ inner outer) ?_
    obtain ⟨_, _, _, heq⟩ := Work.noteContained_eq (world.state _) inner outer
    rw [heq]
  merged _ _ := Work.keeps_takeMerged (fun world _ => .refl family world) fun world merged _ _ =>
    .keepMerged merged.additions world
  mergedNested _ _ _ _ := Work.keeps_takeMerged (fun world _ => .refl family world)
    fun world merged _ _ => .keepMerged merged.additions world
  product _ _ _ _ _ := by
    refine Work.keeps_productOf (advancing_refl family) (advancing_trans family) ?_ ?_ ?_
    · exact Work.keeps_newProduct (advancing_trans family)
        (fun _ _ _ _ => .of_states rfl [] rfl fun _ _ => rfl) fun _ _ _ => .noting fun _ _ => rfl
    · exact fun _ _ _ => .of_withState (.keepProduct _ _ _) rfl
    · exact fun _ _ _ _ => .noting fun _ _ => rfl

/-- Work that advances the world, and then work that advances it from there. -/
theorem World.Advances.bind {α β : Type} {work : Work α} {next : α → Work β} {world : World}
    (h : world.Advances family (work world).2)
    (hnext : ∀ value after, work world = (.ok value, after) → world.Advances family after →
      after.Advances family (next value after).2) :
    world.Advances family ((work >>= next) world).2 := by
  rw [Work.bind_apply]
  rcases hrun : work world with ⟨stop | value, after⟩ <;> rw [hrun] at h
  · exact h
  · exact h.trans (hnext value after hrun h)

end Injector
