import Injector.Proofs.Dependence.Mirror
import Injector.Proofs.Dependence.Reasons

/-!
# Beans within prototypes

A definition that is nested in another one is merged for it, and takes its scope if it would be a
singleton within a prototype. So the prototype scope is handed down: whatever the definitions within a
prototype say, and whatever they inherit, each of them is merged to a prototype, at any depth
(`Creation.isPrototype_of_within`).

A prototype keeps the name that it is nested by, and under that name it is noted to be contained in the
bean around it (`Creation.BuiltAsPrototype`). Noting it again changes nothing, so however often a prototype
is created, what is nested in it is noted once (`nested_in_prototype`).

* `Creation.Nesting` is one step down: how a bean that is created comes to create another one for a
  definition that is nested in its own.
-/

namespace Injector

open Relation

variable {family : Family}

/-! ## Scopes -/

namespace DefinitionOf

variable {ρ : Type} {definition containing : DefinitionOf ρ}

theorem isPrototype_eq_not_isSingleton (definition : DefinitionOf ρ) :
    definition.isPrototype = !definition.isSingleton := by
  unfold isPrototype isSingleton
  cases definition.scope <;> rfl

/-- Within a prototype there is no singleton. -/
theorem isPrototype_within (h : containing.isPrototype = true) :
    (definition.within (some containing)).isPrototype = true := by
  rw [isPrototype_eq_not_isSingleton, Bool.not_eq_true'] at h
  unfold within
  dsimp only
  split
  · next hsingleton =>
    show containing.isPrototype = true
    rw [isPrototype_eq_not_isSingleton, h]
    rfl
  · next hnot =>
    rw [isPrototype_eq_not_isSingleton]
    simpa [h] using hnot

theorem isSingleton_bare (definition : Definition) : definition.bare.isSingleton = definition.isSingleton :=
  rfl

end DefinitionOf

/-- **What is nested in a prototype is merged to a prototype**, whatever it says itself and whatever it
inherits. -/
theorem World.isPrototype_of_mergedNested {world : World} {chain : Chain} {name : String}
    {definition containing : Definition} {merged : Merged} (h : containing.isPrototype = true)
    (hmerged : world.mergedNested chain name definition (some containing) = .ok merged) :
    merged.definition.isPrototype = true := by
  cases chain with
  | nil => cases hmerged
  | cons registry ancestors =>
    rcases State.complete_eq_ok hmerged with ⟨-, rfl⟩ | ⟨_, _, -, -, rfl⟩
    · exact DefinitionOf.isPrototype_within h
    · exact DefinitionOf.isPrototype_within h

/-! ## Names -/

/-- A bean that is created has one nested in it, which is created in turn: for a definition that is nested
in its own, merged in some world, and under the name that the bean is given there. -/
inductive Creation.Nesting (owner : Creation family) : Creation family → Prop
  | nested {inner : String × Definition} {world merging naming : World} {merged : Definition}
      {given : String} (hinner : inner ∈ owner.definition.nested)
      (hmerged : mergedNestedDefinition owner.member.chain inner.1 inner.2 (some owner.definition) world =
        (.ok merged, merging))
      (hgiven : (if merged.isSingleton then owner.member.registry.freeName inner.1
        else pure inner.1 : Work String) merging = (.ok given, naming)) :
      Creation.Nesting owner ⟨owner.member, given, .nothing, merged⟩

/-- A nested definition is merged to a prototype, the bean keeps the name that it is nested by, and before
anything else it is noted to be contained under that name. It stays so, and noting it again changes
nothing. -/
structure Creation.BuiltAsPrototype (owner : Creation family) (inner : String × Definition) (depth : Nat)
    (path : ArgumentPath) (world : World) (merged : Definition) (merging : World) : Prop where
  isPrototype : merged.isPrototype = true
  built : (owner.resolution depth).resolveNested path inner.1 inner.2 world =
    (owner.resolution depth).blaming
      (.innerBean inner.1 (merged.className.or inner.2.className) path.toText)
      (owner.member.registry.noteContained inner.1 owner.name >>= fun _ =>
        (owner.resolution depth).buildNamed inner.1 merged >>= fun made => pure made.withoutMarker) merging
  noted : ∀ later, ((owner.resolution depth).resolveNested path inner.1 inner.2 world).2.Grows later →
    inner.1 ∈ (later.state owner.member.registry.index).containedIn owner.name ∧
      (later.state owner.member.registry.index).noteContained inner.1 owner.name =
        later.state owner.member.registry.index

namespace Creation

variable {owner inner : Creation family}

theorem isPrototype_of_nesting (h : owner.Nesting inner) (hprototype : owner.definition.isPrototype = true) :
    inner.definition.isPrototype = true := by
  cases h with
  | nested _ hmerged _ =>
    obtain ⟨_, hfound, rfl, -⟩ := Work.takeMerged_eq_ok hmerged
    exact World.isPrototype_of_mergedNested hprototype hfound

/-- **Whatever is created within a prototype is created by a prototype definition.** -/
theorem isPrototype_of_within {outer : Creation family} (hprototype : outer.definition.isPrototype = true)
    (h : ReflTransGen Nesting outer owner) : owner.definition.isPrototype = true := by
  induction h with
  | refl => exact hprototype
  | tail _ hnesting ih => exact isPrototype_of_nesting hnesting ih

/-- The bean keeps the name that it is nested by. -/
theorem exists_nested_of_nesting (h : owner.Nesting inner)
    (hprototype : owner.definition.isPrototype = true) :
    ∃ nested ∈ owner.definition.nested, inner.name = nested.1 := by
  have hscope := isPrototype_of_nesting h hprototype
  cases h with
  | @nested nested _ _ _ merged given hinner _ hgiven =>
    refine ⟨nested, hinner, ?_⟩
    have hsingleton : merged.isSingleton = false := by
      rwa [DefinitionOf.isPrototype_eq_not_isSingleton, Bool.not_eq_true'] at hscope
    rw [hsingleton] at hgiven
    cases hgiven
    rfl

/-- What is nested in a prototype is built as a prototype, if it can be merged. -/
theorem builtAsPrototype {nested : String × Definition} {depth : Nat} {path : ArgumentPath}
    {world merging : World} {merged : Definition} (hprototype : owner.definition.isPrototype = true)
    (hmerged : mergedNestedDefinition owner.member.chain nested.1 nested.2 (some owner.definition) world =
      (.ok merged, merging)) :
    owner.BuiltAsPrototype nested depth path world merged merging := by
  obtain ⟨found, hfound, rfl, -⟩ := Work.takeMerged_eq_ok hmerged
  have hscope := World.isPrototype_of_mergedNested hprototype hfound
  have hsingleton : found.definition.isSingleton = false := by
    rwa [DefinitionOf.isPrototype_eq_not_isSingleton, Bool.not_eq_true'] at hscope
  have hbuilt : (owner.resolution depth).resolveNested path nested.1 nested.2 world =
      (owner.resolution depth).blaming
        (.innerBean nested.1 (found.definition.className.or nested.2.className) path.toText)
        (owner.member.registry.noteContained nested.1 owner.name >>= fun _ =>
          (owner.resolution depth).buildNamed nested.1 found.definition >>= fun made =>
            pure made.withoutMarker) merging := by
    have hfirst : (owner.resolution depth).blaming
        (.innerBean nested.1 nested.2.className path.toText)
        ((owner.resolution depth).provider.merged nested.1 nested.2 owner.definition) world =
          (.ok found.definition, merging) := Work.explain_apply_ok _ hmerged
    refine (Work.bind_apply_ok hfirst).trans ?_
    rw [Resolution.build_eq, hsingleton]
    rfl
  refine ⟨hscope, hbuilt, fun later hlater => ?_⟩
  have hK := World.container_grows family
  have hp : (owner.resolution depth).provider.Within fun _ work => work.Keeps World.Grows :=
    hK.provider_within hK.toCompositional (hK.serve_within depth) owner.member.has depth
  have hmade : ((owner.resolution depth).buildNamed nested.1 found.definition >>= fun made =>
      pure made.withoutMarker).Keeps World.Grows :=
    hK.bind (Resolution.buildNamed_mem hK.toComposable hp.toGrants (hp.create _ _)) fun _ => hK.pure _
  -- what is noted first is there whatever comes of the rest
  have hnoted : nested.1 ∈ (((owner.resolution depth).resolveNested path nested.1 nested.2 world).2.state
      owner.member.registry.index).containedIn owner.name := by
    rw [hbuilt]
    unfold Resolution.blaming
    rw [Work.explain_apply_snd]
    refine ((hmade _).1 _).contained.names _ |>.subset ?_
    rw [World.state_withState, if_pos rfl]
    exact State.mem_containedIn_noteContained _ _ _
  have hstays := ((hlater.1 _).contained.names _).subset hnoted
  exact ⟨hstays, State.noteContained_of_mem hstays⟩

end Creation

/-! ## Requests -/

/-- The world after beans were requested by their names, at some depths. -/
def World.requested (start : World) (requests : List (family.Member × Nat × String)) : World :=
  start.followed (requests.map fun (member, depth, name) =>
    (.inquire member depth (.bean name) : Operation family))

theorem World.linked_requested (start : World) (requests : List (family.Member × Nat × String)) :
    Linked family start (start.requested requests) := by
  induction requests using List.reverseRecOn with
  | nil => exact .refl family start
  | append_singleton requests request ih =>
    obtain ⟨member, depth, name⟩ := request
    unfold World.requested at ih ⊢
    rw [List.map_append, List.map_singleton, World.followed_concat]
    exact @Inquiry.linked _ start member depth (.bean name) rfl _ ih

/-- A name in the set of those that are contained in a bean occurs there once. -/
theorem State.nodup_containedIn (state : State) (outer : String) : (state.containedIn outer).Nodup := by
  unfold containedIn linksOf
  cases state.contained.find? outer with
  | none => exact .nil
  | some names => exact names.nodup

/-- Only a singleton is noted by another name than the one that it is nested by. -/
theorem Creation.Nests.eq_of_isPrototype {creation : Creation family} {start : World} {given : String}
    (h : creation.Nests start given) :
    ∃ inner ∈ creation.definition.nested,
      (creation.definition.isPrototype = true → given = inner.1) ∧
        ∃ count, given = State.numberedName inner.1 count := by
  obtain ⟨inner, hinner, definition, count, hbare, rfl, hcount⟩ := h
  refine ⟨inner, hinner, fun hprototype => ?_, count, rfl⟩
  obtain ⟨merged, hmerged, hdefinition⟩ := World.exists_of_bareOf hbare
  have hscope := World.isPrototype_of_mergedNested hprototype hmerged
  rw [DefinitionOf.isPrototype_eq_not_isSingleton, Bool.not_eq_true', ← DefinitionOf.isSingleton_bare,
    hdefinition, DefinitionOf.isSingleton_bare] at hscope
  rw [hcount hscope]
  rfl

/-- **Nothing within a prototype is a singleton.** Of whatever is created within a prototype, at any depth
and in any world: it is created by a prototype definition itself, and what is nested in its definition is
merged to a prototype, whatever scope is declared there or inherited, keeps the name that it is nested by,
and is noted under that very name to be contained in the bean around it, once and for all.

And however often beans are requested: no name is noted twice for the same bean, and if one was noted that
was not noted before, it is nested in a bean that is created, and is the name that it is nested by if that
bean is a prototype. -/
theorem nested_in_prototype {outer owner : Creation family}
    (hprototype : outer.definition.isPrototype = true) (hwithin : ReflTransGen Creation.Nesting outer owner) :
    owner.definition.isPrototype = true ∧
    (∀ inner, owner.Nesting inner →
      inner.definition.isPrototype = true ∧
        ∃ nested ∈ owner.definition.nested, inner.name = nested.1) ∧
    (∀ nested ∈ owner.definition.nested, ∀ depth path world merged merging,
      mergedNestedDefinition owner.member.chain nested.1 nested.2 (some owner.definition) world =
          (.ok merged, merging) →
        owner.BuiltAsPrototype nested depth path world merged merging) ∧
    ∀ (start : World) (requests : List (family.Member × Nat × String)) (index : Nat) (name : String),
      (((start.requested requests).state index).containedIn name).Nodup ∧
      (start.state index).containedIn name <+: ((start.requested requests).state index).containedIn name ∧
      ∀ given ∈ ((start.requested requests).state index).containedIn name,
        given ∉ (start.state index).containedIn name →
          ∃ creation : Creation family, creation.Planned start ∧
            creation.member.registry.index = index ∧ creation.name = name ∧
            ∃ nested ∈ creation.definition.nested,
              (creation.definition.isPrototype = true → given = nested.1) ∧
                ∃ count, given = State.numberedName nested.1 count := by
  have howner := Creation.isPrototype_of_within hprototype hwithin
  refine ⟨howner, fun inner hnesting => ⟨Creation.isPrototype_of_nesting hnesting howner,
    Creation.exists_nested_of_nesting hnesting howner⟩,
    fun nested _ depth path world merged merging => Creation.builtAsPrototype howner, ?_⟩
  intro start requests index name
  have hlinked := start.linked_requested requests
  refine ⟨State.nodup_containedIn _ _, (hlinked.grows.1 index).contained.names name, ?_⟩
  intro given hgiven hnew
  obtain ⟨creation, hplanned, hindex, hname, hnests⟩ :=
    (hlinked.contained index name given hgiven).resolve_left hnew
  exact ⟨creation, hplanned, hindex, hname, hnests.eq_of_isPrototype⟩

/-! ### A session and its tracker -/

/-- The bean that another one completes says that it is a singleton. -/
def trackedOperations : List (Operation (Family.lone plainRegistry)) :=
  [.register (Registry.lone plainRegistry)
    (.definition "base" { className := some "P", declaredScope := some .singleton })]

/-- A singleton, by what it says, with a bean in a list that completes `base`. -/
def trackerDefinition : Definition where
  className := some "P"
  declaredScope := some .singleton
  properties := [("log", .list [.inner "i" { parent := some "base" }])]

/-- A prototype in which the tracker is nested. -/
def sessionDefinition : Definition where
  className := some "P"
  declaredScope := some .prototype
  properties := [("tracker", .holder "tracker" [] trackerDefinition)]

/-- The session is created by its name. -/
def sessionCreation : Creation (Family.lone plainRegistry) :=
  ⟨Registry.lone plainRegistry, "session", .merged 0 "session", sessionDefinition⟩

/-- What the tracker is created by has another scope than it declares. -/
def trackerCreation : Creation (Family.lone plainRegistry) :=
  ⟨Registry.lone plainRegistry, "tracker", .nothing,
    { trackerDefinition with declaredScope := some .prototype }⟩

/-- Both the tracker and what it has nested in its list are prototypes, under the names that they are
nested by. -/
theorem nested_in_prototype_session :
    sessionCreation.definition.isPrototype = true ∧
      ReflTransGen Creation.Nesting sessionCreation trackerCreation ∧
      trackerCreation.definition.isPrototype = true ∧
      ∃ merged merging, mergedNestedDefinition trackerCreation.member.chain (anonymousName "i")
          { parent := some "base" } (some trackerCreation.definition) (World.after trackedOperations) =
            (.ok merged, merging) ∧
        trackerCreation.BuiltAsPrototype (anonymousName "i", { parent := some "base" }) 1 (.property "log")
          (World.after trackedOperations) merged merging := by
  have hprototype : sessionCreation.definition.isPrototype = true := rfl
  have hinner : ("tracker", trackerDefinition) ∈ sessionCreation.definition.nested := List.mem_cons_self
  have hmerged : mergedNestedDefinition sessionCreation.member.chain "tracker" trackerDefinition
      (some sessionCreation.definition) {} = (.ok trackerCreation.definition, {}) := rfl
  have hwithin : ReflTransGen Creation.Nesting sessionCreation trackerCreation :=
    .single (.nested hinner hmerged rfl)
  obtain ⟨hscope, -, hbuilt, -⟩ := nested_in_prototype hprototype hwithin
  have hok : (mergedNestedDefinition trackerCreation.member.chain (anonymousName "i")
      { parent := some "base" } (some trackerCreation.definition)
      (World.after trackedOperations)).1.isOk = true := by
    decide +kernel
  rcases hmerged : mergedNestedDefinition trackerCreation.member.chain (anonymousName "i")
      { parent := some "base" } (some trackerCreation.definition) (World.after trackedOperations) with
    ⟨stop | merged, merging⟩
  · rw [hmerged] at hok
    cases hok
  · exact ⟨hprototype, hwithin, hscope, merged, merging, rfl,
      hbuilt (anonymousName "i", { parent := some "base" }) List.mem_cons_self _ _ _ _ _ hmerged⟩

end Injector
