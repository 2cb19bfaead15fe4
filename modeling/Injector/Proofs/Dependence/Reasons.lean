import Injector.Proofs.Dependence.Cycles
import Injector.Proofs.Dependence.Recorded

/-!
# Why links are noted

A bean is noted to depend on another one for a reason: it is created by a definition that names the other
one as a prerequisite, refers to it, has a dependency that is satisfied by it, or has it nested in it
(`Creation.Asks`). In the same way, a bean is noted to contain another one only if it is created by a
definition in which that one is nested (`Creation.Nests`).

All of this is a matter of what containers define when they are asked. Whatever is asked of them, links
are noted for such reasons alone (`linking`), so every link that there is after a run was noted for a
reason that there was when it was noted, or by hand (`World.links_after`). Whether there still is one,
nobody looks again.
-/

namespace Injector

open Relation

variable {family : Family}

/-! ## Reasons -/

/-- A bean is nested in the definition of the bean that is created. It goes by the name it has there; if
it is a singleton, a number may follow. -/
def Creation.Nests (creation : Creation family) (start : World) (given : String) : Prop :=
  ∃ inner ∈ creation.definition.nested, ∃ (definition : Definition) (count : Nat),
    World.bareOf (start.mergedNested creation.member.chain inner.1 inner.2
      (some creation.definition)) = some definition.bare ∧
    given = State.numberedName inner.1 count ∧ (definition.isSingleton = false → count = 0)

/-- The name stands for a bean on which the one that is created depends, since its definition says so or
since that is what was found for it between two worlds. -/
inductive Creation.Asks (creation : Creation family) (start after : World) : String → Prop
  | prerequisite {name : String} (hmem : name ∈ creation.definition.dependsOn) :
      Asks creation start after name
  | reference {reference : Reference} {depth : Nat} {part : Chain} {name : String}
      (hleaf : .reference reference ∈ creation.definition.leaves) (hlocal : reference.inParent = false)
      (haims : start.Aims after creation.member depth reference part name) :
      Asks creation start after name
  | dependency {dependency : Dependency} {part : Chain} {names : List String} {name : String}
      (hleaf : .dependency dependency ∈ creation.definition.leaves)
      (hpart : part <:+ creation.member.chain)
      (hselected : start.Selected after dependency creation.name part names) (hname : name ∈ names) :
      Asks creation start after name
  | nested {given : String} (hnests : creation.Nests start given) : Asks creation start after given

theorem Creation.Asks.mono {creation : Creation family} {start world after : World} {name : String}
    (h : creation.Asks start world name) (hafter : world.Grows after) :
    creation.Asks start after name := by
  cases h with
  | prerequisite hmem => exact .prerequisite hmem
  | reference hleaf hlocal haims => exact .reference hleaf hlocal (haims.mono (.refl _) hafter)
  | dependency hleaf hpart hselected hname =>
    exact .dependency hleaf hpart (hselected.mono (.refl _) hafter) hname
  | nested hnests => exact .nested hnests

/-- A bean that is created by what the start says depends on what a name stands for. -/
def World.Asks (family : Family) (start after : World) (index : Nat) (name dependent : String) : Prop :=
  ∃ creation : Creation family, creation.Planned start ∧ creation.member.registry.index = index ∧
    creation.name = dependent ∧
    ∃ asked, creation.Asks start after asked ∧ (start.state index).canonicalName asked = name

theorem World.Asks.mono {start world after : World} {index : Nat} {name dependent : String}
    (h : start.Asks family world index name dependent) (hafter : world.Grows after) :
    start.Asks family after index name dependent := by
  obtain ⟨creation, hplanned, hindex, hname, asked, hasks, hcanonical⟩ := h
  exact ⟨creation, hplanned, hindex, hname, asked, hasks.mono hafter, hcanonical⟩

/-- In a bean that is created by what the start says, one of a name is nested. -/
def World.Encloses (family : Family) (start : World) (index : Nat) (outer inner : String) : Prop :=
  ∃ creation : Creation family, creation.Planned start ∧ creation.member.registry.index = index ∧
    creation.name = outer ∧ creation.Nests start inner

/-! ## What is noted -/

namespace State

variable {state : State}

theorem links_of_noteDependent {asked dependent name other : String}
    (h : Links (state.noteDependent asked dependent).dependents name other) :
    Links state.dependents name other ∨ name = state.canonicalName asked ∧ other = dependent := by
  unfold State.noteDependent at h
  dsimp only at h
  split at h
  · exact .inl h
  · exact ((mem_linksOf_link _ _ _ _ _).mp h).symm

theorem links_of_noteContained {inner outer name other : String}
    (h : Links (state.noteContained inner outer).dependents name other) :
    Links state.dependents name other ∨ name = state.canonicalName inner ∧ other = outer := by
  unfold State.noteContained at h
  split at h
  · exact .inl h
  · exact (links_of_noteDependent h).imp_right id

theorem contained_noteDependent (state : State) (name dependent : String) :
    (state.noteDependent name dependent).contained = state.contained := by
  obtain ⟨dependents, dependencies, heq⟩ := Work.noteDependent_eq state name dependent
  rw [heq]

end State

/-- What was done since the start rests on what the start says, and every link that was noted since then
was noted for a reason. -/
structure Linked (family : Family) (start world : World) : Prop where
  grows : start.Grows world
  keeping : World.Keeping family start world
  links : ∀ index name dependent, State.Links (world.state index).dependents name dependent →
    State.Links (start.state index).dependents name dependent ∨
      start.Asks family world index name dependent
  contained : ∀ index outer inner, inner ∈ (world.state index).containedIn outer →
    inner ∈ (start.state index).containedIn outer ∨ start.Encloses family index outer inner

namespace Linked

variable {start world after : World}

theorem refl (family : Family) (start : World) : Linked family start start :=
  ⟨.refl start, .refl family start, fun _ _ _ => .inl, fun _ _ _ => .inl⟩

/-- Whatever notes nothing needs no reason. -/
theorem next (h : Linked family start world) (hgrows : world.Grows after)
    (hkeeping : World.Keeping family start after) (hsame : Statewise State.SameLinks world after) :
    Linked family start after where
  grows := h.grows.trans hgrows
  keeping := hkeeping
  links index name dependent hlink := by
    rw [(hsame index).2.1] at hlink
    exact (h.links index name dependent hlink).imp_right (·.mono hgrows)
  contained index outer inner hinner := by
    rw [State.containedIn_congr (hsame index).2.2] at hinner
    exact h.contained index outer inner hinner

/-- A change of one state is linked if what it notes has its reasons. -/
theorem withState (h : Linked family start world) {index : Nat} {state : State}
    (hgrows : world.Grows (world.withState index state))
    (hkeeping : World.Keeping family start (world.withState index state))
    (hlinks : ∀ name dependent, State.Links state.dependents name dependent →
      State.Links (world.state index).dependents name dependent ∨
        start.Asks family world index name dependent)
    (hcontained : ∀ outer inner, inner ∈ state.containedIn outer →
      inner ∈ (world.state index).containedIn outer ∨ start.Encloses family index outer inner) :
    Linked family start (world.withState index state) where
  grows := h.grows.trans hgrows
  keeping := hkeeping
  links other name dependent hlink := by
    have hold : State.Links (world.state other).dependents name dependent ∨
        start.Asks family world other name dependent := by
      rw [World.state_withState] at hlink
      split at hlink
      · next he => exact he ▸ hlinks name dependent hlink
      · exact .inl hlink
    rcases hold with hbefore | hasks
    · exact (h.links other name dependent hbefore).imp_right (·.mono hgrows)
    · exact .inr (hasks.mono hgrows)
  contained other outer inner hinner := by
    rw [World.state_withState] at hinner
    split at hinner
    · next he =>
      subst he
      rcases hcontained outer inner hinner with hbefore | hencloses
      · exact h.contained other outer inner hbefore
      · exact .inr hencloses
    · exact h.contained other outer inner hinner

section

variable {creation : Creation family} (hplanned : creation.Planned start)

include hplanned

/-- What a bean that is created asks for may be noted. -/
theorem noteDependent (h : Linked family start world) {asked : String}
    (hasks : creation.Asks start world asked) :
    Linked family start (creation.member.registry.noteDependent asked creation.name world).2 := by
  refine h.withState
    ((World.container_grows family).noteDependent creation.member.has asked creation.name world)
    ((World.container_keeping family start).noteDependent creation.member.has asked creation.name world
      h.keeping) (fun name dependent hlink => ?_) fun outer inner hinner => .inl ?_
  · refine (State.links_of_noteDependent hlink).imp_right ?_
    rintro ⟨rfl, rfl⟩
    exact ⟨creation, hplanned, rfl, rfl, asked, hasks, ((h.grows.1 _).canonicalName asked).symm⟩
  · rwa [State.containedIn_congr (State.contained_noteDependent ..)] at hinner

/-- What is nested in a bean that is created may be noted. -/
theorem noteContained (h : Linked family start world) {given : String}
    (hnests : creation.Nests start given) :
    Linked family start (creation.member.registry.noteContained given creation.name world).2 := by
  refine h.withState
    ((World.container_grows family).noteContained creation.member.has given creation.name world)
    ((World.container_keeping family start).noteContained creation.member.has given creation.name world
      h.keeping) (fun name dependent hlink => ?_) fun outer inner hinner => ?_
  · refine (State.links_of_noteContained hlink).imp_right ?_
    rintro ⟨rfl, rfl⟩
    exact ⟨creation, hplanned, rfl, rfl, given, .nested hnests, ((h.grows.1 _).canonicalName given).symm⟩
  · by_cases hold : inner ∈ (world.state creation.member.registry.index).containedIn outer
    · exact .inl hold
    · obtain ⟨-, rfl, rfl⟩ := State.noteContained_new hold hinner
      exact .inr ⟨creation, hplanned, rfl, rfl, hnests⟩

end

/-- Changing which beans are being created notes nothing. -/
theorem creating (h : Linked family start world) (index : Nat) (names : NameSet) :
    Linked family start (world.creating index names) := by
  refine h.next ⟨?_, List.suffix_refl _⟩ (h.keeping.withState ⟨rfl, rfl⟩ rfl) ?_
  · exact State.stateRelation_grown.statewise_withState (State.stateRelation_grown.inCreation _ _)
  · exact Statewise.withState (fun _ => ⟨rfl, rfl, rfl⟩) ⟨rfl, rfl, rfl⟩

end Linked

/-! ## Requests -/

theorem Statewise.sameLinks_refl (world : World) : Statewise State.SameLinks world world :=
  fun _ => ⟨rfl, rfl, rfl⟩

/-- What tends to beans without noting anything leaves all links as they are. -/
theorem tending_sameLinks (family : Family) :
    Tending family fun _ work => work.Keeps (Statewise State.SameLinks) := by
  have hstate : ∀ first second third : State, first.SameLinks second → second.SameLinks third →
      first.SameLinks third :=
    fun _ _ _ hab hbc => ⟨hbc.1.trans hab.1, hbc.2.1.trans hab.2.1, hbc.2.2.trans hab.2.2⟩
  have hrefl := Statewise.sameLinks_refl
  have htrans := Statewise.trans hstate
  have hset {world : World} {index : Nat} {state : State} (h : (world.state index).SameLinks state) :
      Statewise State.SameLinks world (world.withState index state) :=
    Statewise.withState (fun _ => ⟨rfl, rfl, rfl⟩) h
  have hkeep (world : World) (merged : Merged) :
      Statewise State.SameLinks world (world.keepMerged merged.additions) :=
    Statewise.keepMerged (fun _ => ⟨rfl, rfl, rfl⟩) hstate (fun _ _ _ => ⟨rfl, rfl, rfl⟩) _ world
  exact
    { toComposable := (Work.compositional_keeps hrefl htrans).toComposable
      learn := fun owner _ _ world => by
        cases owner with
        | nothing => exact hrefl world
        | bench => exact fun _ => ⟨rfl, rfl, rfl⟩
        | merged index name => exact hset ⟨rfl, rfl, rfl⟩
      merged := fun _ _ => Work.keeps_takeMerged hrefl fun world merged _ => hkeep world merged
      mergedNested := fun _ _ _ _ => Work.keeps_takeMerged hrefl fun world merged _ => hkeep world merged
      product := fun _ _ _ _ _ => Work.keeps_productOf hrefl htrans
        (Work.keeps_newProduct htrans (fun _ _ _ _ => ⟨rfl, rfl, rfl⟩) fun _ _ _ => ⟨rfl, rfl, rfl⟩)
        (fun _ _ => hset ⟨rfl, rfl, rfl⟩) fun _ _ _ _ => ⟨rfl, rfl, rfl⟩ }

/-- What tends to beans without noting anything needs no reason. -/
theorem tending_linked (family : Family) (start : World) :
    Tending family fun _ work =>
      work.Keeps fun world after => Linked family start world → Linked family start after := by
  have hgrows := (World.container_grows family).toTending
  have hkeeping := (World.container_keeping family start).toTending
  have hsame := tending_sameLinks family
  exact
    { toComposable := (Work.compositional_preserves _).toComposable
      learn := fun owner steps lesson world h =>
        h.next (hgrows.learn owner steps lesson world) (hkeeping.learn owner steps lesson world h.keeping)
          (hsame.learn owner steps lesson world)
      merged := fun hf name world h =>
        h.next (hgrows.merged hf name world) (hkeeping.merged hf name world h.keeping)
          (hsame.merged hf name world)
      mergedNested := fun hf name definition containing world h =>
        h.next (hgrows.mergedNested hf name definition containing world)
          (hkeeping.mergedNested hf name definition containing world h.keeping)
          (hsame.mergedNested hf name definition containing world)
      product := fun hf label maker name processed world h =>
        h.next (hgrows.product hf label maker name processed world)
          (hkeeping.product hf label maker name processed world h.keeping)
          (hsame.product hf label maker name processed world) }

/-- Noting that something was done needs no reason. -/
theorem Linked.noting {start world : World} (h : Linked family start world) (event : Event) :
    Linked family start (world.noting event) :=
  h.next ⟨Statewise.refl .refl _, List.suffix_cons _ _⟩ (h.keeping.of_states rfl)
    fun _ => ⟨rfl, rfl, rfl⟩

/-- Requests of both kinds note links for reasons alone. -/
structure Linking (family : Family) (start : World) (depth : Nat) : Prop where
  bean : ∀ chain name, family.Has chain → (serve depth (.bean chain name)).Keeps
    fun world after => Linked family start world → Linked family start after
  creation : ∀ creation : Creation family, creation.Planned start → creation.owner = .nothing →
    (serve depth (.creation creation.member.chain creation.name creation.definition)).Keeps
      fun world after => Linked family start world → Linked family start after

section

variable {start : World} {depth : Nat} (hserve : Linking family start depth)

include hserve

/-- A reference of a container itself is noted for what it aims at, and one of its ancestors is not
noted. -/
theorem linked_resolveReference {creation : Creation family} (hplanned : creation.Planned start)
    {reference : Reference} (hleaf : .reference reference ∈ creation.definition.leaves)
    (path : ArgumentPath) :
    ((creation.resolution depth).resolveReference path reference).Keeps
      fun world after => Linked family start world → Linked family start after := by
  have hK := tending_linked family start
  have hstop := Work.compositional_preserves (Linked family start)
  have hp : (creation.resolution depth).provider.Offers _ :=
    hK.provider_offers hserve.bean creation.member.has depth
  have htext (text : String) : ((creation.resolution depth).provider.evaluate text).Keeps
      fun world after => Linked family start world → Linked family start after := hstop.ofStop _
  unfold Resolution.resolveReference
  refine hK.explain _ ?_
  split
  · next hparent =>
    exact hK.bind (Resolution.lookUpInParent_mem hK.toComposable hp hparent fun text _ => htext text)
      fun _ => hK.pure _
  · next hlocal =>
    refine hK.bind (fun world h => ?_) fun _ => hK.pure _
    rw [Resolution.lookUp_eq]
    refine Work.bind_preserves (Resolution.seek_mem hK.toComposable hp (fun text _ => htext text) world h)
      fun (name, value) between hfound hbetween => ?_
    obtain ⟨part, haims, -⟩ := Resolution.seek_eq_ok rfl hfound
    have hasks : creation.Asks start between name :=
      .reference hleaf (Bool.eq_false_iff.mpr hlocal) (haims.mono h.grows (.refl _))
    exact Work.bind_preserves (hbetween.noteDependent hplanned hasks) fun _ _ _ hafter => hafter

/-- A dependency is noted for the beans that it is satisfied by. -/
theorem linked_resolveDependency {creation : Creation family} (hplanned : creation.Planned start)
    {dependency : Dependency} (hleaf : .dependency dependency ∈ creation.definition.leaves) :
    ((creation.resolution depth).resolveDependency dependency).Keeps
      fun world after => Linked family start world → Linked family start after := by
  have hK := tending_linked family start
  intro world h
  unfold Resolution.resolveDependency
  refine Work.bind_preserves (hK.autowire hserve.bean dependency _ _ _ creation.member.has world h)
    fun (names, outcome) between hinjected hbetween => ?_
  cases outcome with
  | error failure => exact hbetween
  | ok value =>
    have hasks : ∀ name ∈ names, creation.Asks start between name := by
      intro name hname
      rcases autowire_eq_ok creation.member.has hinjected with ⟨rfl, -⟩ | ⟨part, hpart, hselected, -⟩
      · cases hname
      · exact .dependency hleaf hpart (hselected.mono h.grows (.refl _)) hname
    -- all names are noted in worlds that grow from the one in which they were found
    have hN := Work.compositional_preserves
      fun noted => Linked family start noted ∧ between.Grows noted
    have hnotes : (names.forM fun name => do
        if ← (creation.resolution depth).provider.lookup.contains name then
          (creation.resolution depth).provider.noteDependent name creation.name : Work Unit).Keeps
        fun noted after => Linked family start noted ∧ between.Grows noted →
          Linked family start after ∧ between.Grows after := by
      refine hN.forM fun name hname =>
        hN.bind (hN.bind hN.get fun _ => hN.pure _) fun known => ?_
      split
      · exact fun noted hnoted => ⟨hnoted.1.noteDependent hplanned ((hasks name hname).mono hnoted.2),
          hnoted.2.trans (grows_noteDependent creation.member.registry name creation.name noted)⟩
      · exact hN.pure _
    exact Work.bind_preserves hbetween fun _ _ hvalue _ => by
      cases hvalue
      exact Work.bind_preserves (hnotes between ⟨hbetween, .refl _⟩).1 fun _ _ _ hafter => hafter

omit hserve in
/-- The prerequisites of a bean that is created are noted before they are had. -/
theorem linked_prerequisites {creation : Creation family} (hplanned : creation.Planned start)
    {work : String → Work Unit} (hwork : ∀ prerequisite ∈ creation.definition.dependsOn,
      ∀ world, Linked family start world →
        (∃ failure, work prerequisite world = (.error (.failure failure), world)) ∨
          ∃ had : Work Unit, work prerequisite world =
              (creation.member.registry.noteDependent prerequisite creation.name >>= fun _ => had) world ∧
            had.Keeps fun world after => Linked family start world → Linked family start after) :
    (creation.definition.dependsOn.forM work).Keeps
      fun world after => Linked family start world → Linked family start after := by
  refine (tending_linked family start).forM fun prerequisite hmem world h => ?_
  rcases hwork prerequisite hmem world h with ⟨failure, heq⟩ | ⟨had, heq, hhad⟩
  · rw [heq]
    exact h
  · rw [heq]
    exact Work.bind_preserves (h.noteDependent hplanned (.prerequisite hmem)) fun _ between _ hnoted =>
      hhad between hnoted

/-- Making a nested bean that has its name, for a bean by whose definition it is nested. -/
theorem linked_buildNamed {r : Resolution} {creation : Creation family}
    (hr : r.provider =
      creation.member.registry.provider creation.member.ancestors (serve depth) depth)
    (hplanned : creation.Planned start) (howner : creation.owner = .nothing) :
    (r.buildNamed creation.name creation.definition).Keeps
      fun world after => Linked family start world → Linked family start after := by
  have hK := tending_linked family start
  unfold Resolution.buildNamed
  rw [hr]
  refine hK.bind (linked_prerequisites hplanned fun prerequisite _ world _ => .inr ⟨_, rfl, ?_⟩)
    fun _ => hK.bind (hserve.creation creation hplanned howner) fun made => ?_
  · exact hK.discard (hserve.bean _ prerequisite creation.member.has)
  · cases made.factory? with
    | none => exact hK.pure _
    | some found => exact hK.product creation.member.has _ _ _ _

/-- Making a bean that is nested in the definition of a bean that is created. -/
theorem linked_nested {creation : Creation family} (hplanned : creation.Planned start)
    {inner : String × Definition} (hinner : inner ∈ creation.definition.nested)
    (path : ArgumentPath) :
    ((creation.resolution depth).resolveNested path inner.1 inner.2).Keeps
      fun world after => Linked family start world → Linked family start after := by
  have hK := tending_linked family start
  refine Creation.resolveNested_preserves path (fun _ h => h.keeping.toRestsOn)
    (hK.mergedNested creation.member.has _ _ _) fun merged hbare first hfirst => ?_
  rw [Resolution.build_eq]
  refine Work.bind_preserves ?_ fun given second hgiven hsecond => ?_
  · split
    · exact hfirst.noting _
    · exact hfirst
  -- the name is the one that the definition gives, with a number if it is a singleton's
  obtain ⟨count, hcount, hprototype⟩ : ∃ count, given = State.numberedName inner.1 count ∧
      (merged.isSingleton = false → count = 0) := by
    split at hgiven
    · next hsingleton =>
      obtain ⟨count, hcount⟩ := (first.state creation.member.registry.index).freeName_eq inner.1
      cases hgiven
      exact ⟨count, hcount, fun hscope => absurd hsingleton (Bool.eq_false_iff.mp hscope)⟩
    · cases hgiven
      exact ⟨0, rfl, fun _ => rfl⟩
  have hnests : creation.Nests start given := ⟨inner, hinner, _, count, hbare, hcount, hprototype⟩
  refine Work.bind_preserves (hsecond.noteContained hplanned hnests) fun _ third _ hthird => ?_
  have hbuilt : (⟨creation.member, given, .nothing, merged⟩ :
      Creation family).Planned start := by
    refine .nested hplanned hinner hbare fun hscope => ?_
    rw [hcount, hprototype hscope]
    rfl
  exact linked_buildNamed hserve rfl hbuilt rfl third hthird

/-- **Creating a bean notes links for the reasons that its definition gives.** -/
theorem linked_instantiate {creation : Creation family} (hplanned : creation.Planned start) :
    (instantiate (serve depth) depth creation.member.registry creation.member.ancestors creation.name
      creation.owner creation.definition).Keeps
      fun world after => Linked family start world → Linked family start after := by
  have hK := tending_linked family start
  have hstop := Work.compositional_preserves (Linked family start)
  have hp : (creation.resolution depth).provider.Offers _ :=
    hK.provider_offers hserve.bean creation.member.has depth
  rcases instantiate_cases (serve depth) depth creation.member.registry creation.member.ancestors
      creation.name creation.owner creation.definition with
    ⟨failure, heq⟩ | ⟨className, constructor, reword, hclass, hconstructor, heq⟩
  · rw [heq]
    exact hK.fail failure
  rw [heq]
  refine hK.bind (Resolution.inputs_of_leaves hK.toComposable (hK.learn _) hp
    fun leaf hleaf path steps => ?_) fun inputs => hK.explain _ ?_
  · obtain ⟨raw, -, hraw⟩ := List.mem_flatMap.mp hleaf
    refine Resolution.resolveLeaf_mem hK.toComposable (hK.learn _) hp path steps
      (RawValue.isLeaf_of_mem_leaves hraw) (fun _ _ => hstop.ofStop _) (fun reference heq => ?_)
      (fun dependency heq => ?_) fun inner hinner => ?_
    · exact linked_resolveReference hserve hplanned (heq ▸ hleaf) path
    · exact linked_resolveDependency hserve hplanned (heq ▸ hleaf)
    · exact linked_nested hserve hplanned (DefinitionOf.mem_nested_iff.mpr ⟨leaf, hleaf, hinner⟩) path
  · refine Work.keeps_construct fun world made construction h => ?_
    exact h.next ⟨Statewise.refl .refl _, List.suffix_cons _ _⟩ (h.keeping.of_states rfl)
      fun _ => ⟨rfl, rfl, rfl⟩

/-- Having the instance of a bean that is defined. -/
theorem linked_instanceOf {member : family.Member} {name : String} {merged : Definition}
    (hplanned : (⟨member, name, .merged member.registry.index name, merged⟩ :
      Creation family).Planned start) :
    (instanceOf (serve depth) depth member.registry member.ancestors name merged).Keeps
      fun world after => Linked family start world → Linked family start after := by
  refine Work.keeps_instanceOf (fun _ h => h) (fun _ _ _ hab hbc h => hbc (hab h))
    (linked_instantiate hserve hplanned) (fun _ names h => h.creating _ names) fun world made h => ?_
  refine h.next ⟨?_, List.suffix_refl _⟩ (h.keeping.withState ⟨rfl, rfl⟩ rfl) ?_
  · exact State.stateRelation_grown.statewise_withState
      (State.stateRelation_grown.keepSingleton _ _ _)
  · exact Statewise.withState (fun _ => ⟨rfl, rfl, rfl⟩) ⟨rfl, rfl, rfl⟩

/-- The prerequisites of a bean that is defined. -/
theorem linked_realizePrerequisites {member : family.Member} {name : String} {merged : Definition}
    (hplanned : (⟨member, name, .merged member.registry.index name, merged⟩ :
      Creation family).Planned start) :
    (realizePrerequisites (serve depth) member.registry member.ancestors name merged).Keeps
      fun world after => Linked family start world → Linked family start after := by
  have hK := tending_linked family start
  refine linked_prerequisites hplanned fun prerequisite _ world _ => ?_
  rw [Work.state_bind_apply]
  split
  · exact .inl ⟨_, rfl⟩
  · exact .inr ⟨_, rfl, hK.explain _ (hK.discard (hserve.bean _ prerequisite member.has))⟩

/-- Having a bean by its name. -/
theorem linked_fetchBean (member : family.Member) (written : String) :
    (fetchBean (serve depth) depth member.registry member.ancestors written).Keeps
      fun world after => Linked family start world → Linked family start after := by
  have hK := tending_linked family start
  refine fetchBean_preserves (fun _ h => ⟨h.grows, h.keeping⟩) hK.toMinding hserve.bean member
    (fun name merged hplanned => ?_) written
  exact hK.bind (linked_realizePrerequisites hserve hplanned) fun _ => linked_instanceOf hserve hplanned

end

/-- **Links are noted for reasons alone at every depth.** -/
theorem linking (family : Family) (start : World) : ∀ depth : Nat, Linking family start depth
  | 0 => ⟨fun _ _ _ _ h => h, fun _ _ _ _ h => h⟩
  | depth + 1 => by
    have hserve := linking family start depth
    have hK := tending_linked family start
    refine ⟨fun chain name hf => ?_, fun creation hplanned howner => ?_⟩
    · cases chain with
      | nil => exact hK.fail _
      | cons registry ancestors =>
        exact hK.bind (linked_fetchBean hserve ⟨registry, ancestors, hf⟩ name) fun value =>
          hK.bind (fun _ h => h.noting _) fun _ => hK.pure _
    · have hmade := linked_instantiate hserve hplanned
      rw [howner] at hmade
      exact hmade

/-! ## Runs -/

/-- Whether links are noted for an inquiry only for the reasons that containers give, and not by hand or
for a definition that is given with it. -/
def Inquiry.notesForReasons : Inquiry → Bool
  | .dependent .. | .contained .. => false
  | inquiry => inquiry.usesDefinitions

/-- Links are noted for such an inquiry for reasons alone. -/
theorem Inquiry.linked {start : World} (member : family.Member) (depth : Nat) {inquiry : Inquiry}
    (h : inquiry.notesForReasons = true) :
    (inquiry.answer depth member.registry member.ancestors).Keeps
      fun world after => Linked family start world → Linked family start after := by
  refine (tending_linked family start).toMinding.answer (linking family start depth).bean member.has inquiry
    ?_ ?_ ?_ ?_
  · rintro name user rfl
    cases h
  · rintro inner outer rfl
    cases h
  · rintro name definition rfl
    cases h
  · rintro beanName definition converter path raw times rfl
    cases h

/-- An operation notes a link: for a reason that containers give, or by hand or for a definition that is
given with it. -/
inductive Operation.NotesLink (operation : Operation family) (world : World) (index : Nat)
    (name dependent : String) : Prop
  | asked (h : world.Asks family (operation.next world) index name dependent)
  | given {member : family.Member} {depth : Nat} {inquiry : Inquiry}
      (hoperation : operation = .inquire member depth inquiry)
      (h : inquiry.notesForReasons = false)

/-- A link that there is after an operation was there before, or the operation notes it. -/
theorem Operation.links_next (operation : Operation family) {world : World} {index : Nat}
    {name dependent : String}
    (h : State.Links ((operation.next world).state index).dependents name dependent) :
    State.Links (world.state index).dependents name dependent ∨
      operation.NotesLink world index name dependent := by
  cases operation with
  | register member registration =>
    obtain ⟨hdependents, -, -⟩ :
        ((member.registry.take registration world).2.state index).dependents = _ ∧ _ :=
      member.registry.take_links registration world index
    unfold Operation.next Operation.perform at h
    rw [hdependents] at h
    exact .inl h
  | inquire member depth inquiry =>
    cases hreasons : inquiry.notesForReasons with
    | true =>
      have hlinked := inquiry.linked member depth hreasons world (.refl family world)
      exact (hlinked.links index name dependent h).imp_right .asked
    | false => exact .inr (.given rfl hreasons)

/-- **Every link that there is after a run was noted by one of its operations.** -/
theorem World.links_after (index : Nat) {name dependent : String} :
    ∀ operations : List (Operation family),
      State.Links ((World.after operations).state index).dependents name dependent →
      ∃ done operation, done ++ [operation] <+: operations ∧
        operation.NotesLink (World.after done) index name dependent := by
  intro operations
  induction operations using List.reverseRecOn with
  | nil => exact fun h => nomatch h
  | append_singleton operations operation ih =>
    intro h
    rw [after_concat] at h
    rcases operation.links_next h with hbefore | hnotes
    · obtain ⟨done, earlier, hdone, hnotes⟩ := ih hbefore
      exact ⟨done, earlier, hdone.trans (List.prefix_append _ _), hnotes⟩
    · exact ⟨operations, operation, List.prefix_refl _, hnotes⟩

end Injector
