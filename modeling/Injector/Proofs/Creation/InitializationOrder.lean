import Injector.Proofs.Names.Lookup
import Injector.Proofs.Requests.SuccessfulCalls

/-!
# The order of initialization

A container calls a constructor once everything that the bean needs is there. Having a bean creates
beans on all sorts of ways: for a name that is asked for, for a nested definition, for what either of
them needs in turn. Each of them is created by a merged definition that the world said before it began
(`Creation.Planned`), and of each call of a constructor it can be said what came before it: the
prerequisites of that definition were had in order, and then its inputs (`Creation.Initialized`).

What is added to the journal by anything else is no call of a constructor, so this is a matter of the
two ways in which beans are created: `accounted_instantiate` is the step for both, and it is carried
through all levels of depth together with the requests that are nested in it (`Accounting`).
-/

namespace Injector

variable {family : Family}

/-! ## Beans that are created -/

/-- What the inputs of a bean that is created are had with. -/
def Creation.resolution (creation : Creation family) (depth : Nat) : Resolution :=
  creation.member.registry.resolution creation.member.ancestors (serve depth) depth creation.name
    creation.owner creation.definition

/-- The bean is created by a merged definition that a world says: that of a name which its container
defines, or that of a definition nested in another one by which a bean is created. -/
inductive Creation.Planned (start : World) : Creation family → Prop
  | bean {member : family.Member} {name : String} {definition : Definition}
      (hdefined : (start.state member.registry.index).definitions.contains name = true)
      (hmerged : World.bareOf (start.mergedIn member.chain name) = some definition.bare) :
      Planned start ⟨member, name, .merged member.registry.index name, definition⟩
  | nested {outer : Creation family} {inner : String × Definition} {given : String}
      {definition : Definition} (h : outer.Planned start) (hinner : inner ∈ outer.definition.nested)
      (hmerged : World.bareOf (start.mergedNested outer.member.chain inner.1 inner.2
        (some outer.definition)) = some definition.bare)
      (hgiven : definition.isSingleton = false → given = inner.1) :
      Planned start ⟨outer.member, given, .nothing, definition⟩

/-- Having a bean by its name keeps a property of worlds that rest on what the start says, if having the
prerequisites and the instance of a bean that is created by what the start says keeps it. -/
theorem fetchBean_preserves {P : World → Prop} {start : World} {handler : Handler} {depth : Nat}
    (hP : ∀ world, P world → start.Grows world ∧ World.Keeping family start world)
    (hK : Minding family fun _ work => work.Keeps fun world after => P world → P after)
    (hbean : ∀ chain name, family.Has chain →
      (handler (.bean chain name)).Keeps fun world after => P world → P after)
    (member : family.Member)
    (hhad : ∀ name merged, (⟨member, name, .merged member.registry.index name, merged⟩ :
        Creation family).Planned start →
      (realizePrerequisites handler member.registry member.ancestors name merged >>= fun _ =>
        instanceOf handler depth member.registry member.ancestors name merged).Keeps
          fun world after => P world → P after)
    (written : String) :
    (fetchBean handler depth member.registry member.ancestors written).Keeps
      fun world after => P world → P after := by
  intro world h
  unfold fetchBean
  rw [Work.state_bind_apply]
  dsimp only
  generalize (world.state member.registry.index).canonicalName (plainName written) = name
  cases (world.state member.registry.index).singletons.find? name with
  | some shared => exact hK.exposed member.has _ _ _ _ world h
  | none =>
    dsimp only
    split
    · next hdefined =>
      refine Work.bind_preserves (hK.merged member.has name world h) fun merged first hmerged hfirst => ?_
      obtain ⟨found, hfound, rfl, -⟩ := Work.takeMerged_eq_ok hmerged
      -- nothing merged since the start says otherwise than the start does
      have hplanned : (⟨member, name, .merged member.registry.index name, found.definition⟩ :
          Creation family).Planned start := by
        refine .bean ?_ ?_
        · rw [← ((hP world h).1.1 _).sources.1]
          exact hdefined
        · rw [← (hP world h).2.toRestsOn.bareOf_mergedIn member.chain_has]
          exact congrArg World.bareOf hfound
      rw [← bind_assoc]
      exact hK.bind (hhad name found.definition hplanned) (fun _ => hK.exposed member.has _ _ _ _)
        first hfirst
    · exact hK.fetchAbove hbean (family.ancestors_has member.has) _ _ world h

/-- What came before a call of a constructor for a bean: its prerequisites were had in order, and then
its inputs, which the constructor is called with. Whatever was done until then is still so in the
world. If the bean was made, it is as the constructor said. -/
structure Creation.Initialized (creation : Creation family) (start world : World)
    (construction : Construction) (earlier : List Event) : Prop where
  registry : construction.registry = creation.member.registry.index
  owner : construction.owner = creation.owner
  className : creation.definition.className = some construction.className
  succeeded : construction.made.isSome = true → construction.Succeeded family
  calls : ∃ depth required ready,
    start.HadInOrder creation.member creation.name creation.definition.dependsOn required ∧
    (creation.resolution depth).inputs required = (.ok construction.inputs, ready) ∧
    ready.journal = earlier ∧ ready.Grows world

/-! ## Accounting for calls -/

/-- What was done since the start rests on what the start says, and of every call of a constructor since
then it can be said what came before it. -/
structure Accounted (family : Family) (start world : World) : Prop where
  grows : start.Grows world
  keeping : World.Keeping family start world
  calls : ∀ construction earlier, .constructed construction :: earlier <:+ world.journal →
    .constructed construction :: earlier <:+ start.journal ∨
      ∃ creation : Creation family, creation.Planned start ∧
        creation.Initialized start world construction earlier

/-- A journal to which no call of a constructor was added. -/
def NoCalls (journal after : List Event) : Prop :=
  ∀ construction earlier, .constructed construction :: earlier <:+ after →
    .constructed construction :: earlier <:+ journal

theorem journalRelation_noCalls :
    JournalRelation (fun event => ∀ construction, event ≠ .constructed construction) NoCalls where
  refl _ _ _ := id
  trans _ _ _ hab hbc construction earlier h := hab construction earlier (hbc construction earlier h)
  cons event journal hevent construction earlier h := by
    rcases List.suffix_cons_iff.mp h with heq | hrest
    · exact absurd (List.cons.inj heq).1.symm (hevent construction)
    · exact hrest

section

variable {start world after : World}

theorem Creation.Initialized.mono {creation : Creation family} {construction : Construction}
    {earlier : List Event} (h : creation.Initialized start world construction earlier)
    (hafter : world.Grows after) : creation.Initialized start after construction earlier := by
  obtain ⟨depth, required, ready, hrequired, hinputs, hready, hgrows⟩ := h.calls
  exact ⟨h.registry, h.owner, h.className, h.succeeded, depth, required, ready, hrequired, hinputs, hready,
    hgrows.trans hafter⟩

theorem Accounted.refl (family : Family) (start : World) : Accounted family start start :=
  ⟨.refl start, .refl family start, fun _ _ => .inl⟩

/-- Whatever calls no constructor leaves nothing to account for. -/
theorem Accounted.next (h : Accounted family start world) (hgrows : world.Grows after)
    (hkeeping : World.Keeping family start after) (hcalls : NoCalls world.journal after.journal) :
    Accounted family start after :=
  ⟨h.grows.trans hgrows, hkeeping, fun construction earlier hcall =>
    (h.calls construction earlier (hcalls construction earlier hcall)).imp_right
      fun ⟨creation, hplanned, hinitialized⟩ => ⟨creation, hplanned, hinitialized.mono hgrows⟩⟩

/-- Changing which beans are being created changes nothing to account for. -/
theorem Accounted.creating (h : Accounted family start world) (index : Nat)
    (names : NameSet) : Accounted family start (world.creating index names) := by
  refine h.next ⟨?_, List.suffix_refl _⟩ (h.keeping.withState ⟨rfl, rfl⟩ rfl) fun _ _ hcall => hcall
  exact State.stateRelation_grown.statewise_withState (State.stateRelation_grown.inCreation _ _)

/-- What is done for every bean calls no constructor. -/
theorem housekeeping_accounted (family : Family) (start : World) :
    Housekeeping family fun _ work =>
      work.Keeps fun world after => Accounted family start world → Accounted family start after := by
  have hquiet := State.stateRelation_grown.housekeeping_with family journalRelation_noCalls
    (fun _ _ _ _ => nofun) (fun _ _ _ => nofun) (fun _ _ _ _ _ _ => nofun)
  have hgrows := (World.container_grows family).toHousekeeping
  have hkeeping := (World.container_keeping family start).toHousekeeping
  refine ((hquiet.and hgrows).and hkeeping).mono (Work.compositional_preserves _).toComposable ?_
  rintro α work ⟨⟨hcalls, hgrown⟩, hkept⟩ world h
  exact h.next (hgrown world) (hkept world h.keeping) (hcalls world).2

/-- Requests of both kinds are accounted for: those for the beans of names, and those for new beans that
have their prerequisites. -/
structure Accounting (family : Family) (start : World) (depth : Nat) : Prop where
  bean : ∀ chain name, family.Has chain → (serve depth (.bean chain name)).Keeps
    fun world after => Accounted family start world → Accounted family start after
  creation : ∀ creation : Creation family, creation.Planned start → creation.owner = .nothing →
    ∀ world, Accounted family start world →
      start.HadInOrder creation.member creation.name creation.definition.dependsOn world →
      Accounted family start
        (serve depth (.creation creation.member.chain creation.name creation.definition) world).2

/-- What is kept when the definition of a nested bean is merged, and when a bean is built by what it comes
to, is kept when the nested bean is made. -/
theorem Creation.resolveNested_preserves {P : World → Prop} {creation : Creation family} {depth : Nat}
    {inner : String × Definition} (path : ArgumentPath)
    (hrests : ∀ world, P world → World.RestsOn family start world)
    (hmerging : (mergedNestedDefinition creation.member.chain inner.1 inner.2
      (some creation.definition)).Keeps fun world after => P world → P after)
    (hbuilding : ∀ merged, World.bareOf (start.mergedNested creation.member.chain inner.1 inner.2
      (some creation.definition)) = some merged.bare →
        ((creation.resolution depth).build inner.1 merged).Keeps fun world after => P world → P after) :
    ((creation.resolution depth).resolveNested path inner.1 inner.2).Keeps
      fun world after => P world → P after := by
  intro world h
  unfold Resolution.resolveNested
  refine Work.bind_preserves ?_ fun merged first hmerged hfirst => ?_
  · exact (Work.compositional_preserves P).explain _ hmerging world h
  obtain ⟨found, hfound, rfl, -⟩ := Work.takeMerged_eq_ok (Work.explain_eq_ok hmerged)
  unfold Resolution.blaming
  rw [Work.explain_apply_snd]
  refine Work.bind_preserves (hbuilding _ ?_ first hfirst) fun _ _ _ hafter => hafter
  rw [← (hrests world h).bareOf_mergedNested creation.member.chain_has]
  exact congrArg World.bareOf hfound

variable {depth : Nat} (hserve : Accounting family start depth)

include hserve

/-- Making a nested bean that has its name, for a bean by whose definition it is nested. -/
theorem accounted_buildNamed {r : Resolution} {member : family.Member} {given : String}
    {definition : Definition}
    (hr : r.provider = member.registry.provider member.ancestors (serve depth) depth)
    (hplanned : (⟨member, given, .nothing, definition⟩ : Creation family).Planned start)
    (h : Accounted family start world) :
    Accounted family start (r.buildNamed given definition world).2 := by
  have hK := housekeeping_accounted family start
  unfold Resolution.buildNamed
  rw [hr]
  refine Work.bind_preserves ?_ fun _ required hrequired hready => Work.bind_preserves ?_
    fun made between _ hbetween => ?_
  · exact hK.forM (fun prerequisite _ => hK.bind (hK.noteDependent member.has _ _) fun _ =>
      hK.discard (hserve.bean _ prerequisite member.has)) world h
  · refine hserve.creation ⟨member, given, .nothing, definition⟩ hplanned rfl required hready ?_
    exact (hadInOrder_of_prerequisites hrequired).since h.grows
  · cases made.factory? with
    | none => exact hbetween
    | some found => exact hK.product member.has _ _ _ _ between hbetween

/-- Making a bean that is nested in the definition of a bean that is created. -/
theorem accounted_nested {creation : Creation family} (hplanned : creation.Planned start)
    {inner : String × Definition} (hinner : inner ∈ creation.definition.nested)
    (path : ArgumentPath) :
    ((creation.resolution depth).resolveNested path inner.1 inner.2).Keeps
      fun world after => Accounted family start world → Accounted family start after := by
  have hK := housekeeping_accounted family start
  refine Creation.resolveNested_preserves path (fun _ h => h.keeping.toRestsOn)
    (hK.mergedNested creation.member.has _ _ _) fun merged hbare first hfirst => ?_
  rw [Resolution.build_eq]
  refine Work.bind_preserves ?_ fun given second hgiven hsecond =>
    Work.bind_preserves ?_ fun _ third _ hthird => ?_
  · split
    · exact hK.freeName inner.1 first hfirst
    · exact hfirst
  · exact hK.noteContained creation.member.has _ _ second hsecond
  · refine accounted_buildNamed hserve rfl (.nested hplanned hinner hbare fun hprototype => ?_) hthird
    rw [hprototype] at hgiven
    cases hgiven
    rfl

/-- **Creating a bean calls its constructor after everything that the bean needs was had**: if it does
so from a world in which its prerequisites were had in order. -/
theorem accounted_instantiate {creation : Creation family} (hplanned : creation.Planned start)
    (h : Accounted family start world)
    (hrequired : start.HadInOrder creation.member creation.name creation.definition.dependsOn world) :
    Accounted family start (instantiate (serve depth) depth creation.member.registry
      creation.member.ancestors creation.name creation.owner creation.definition world).2 := by
  have hK := housekeeping_accounted family start
  have hstop := Work.compositional_preserves (Accounted family start)
  rcases instantiate_cases (serve depth) depth creation.member.registry creation.member.ancestors
      creation.name creation.owner creation.definition with
    ⟨failure, heq⟩ | ⟨className, constructor, reword, hclass, hconstructor, heq⟩
  · rw [heq]
    exact h
  rw [heq]
  -- having the inputs asks the handler and creates nested beans, and then there is the one call
  refine Work.bind_preserves ?_ fun inputs ready hinputs hready => ?_
  · exact Resolution.inputs_mem hK.toComposable (hK.learn _)
      (hK.provider_grants hserve.bean creation.member.has depth) (fun _ _ => hstop.ofStop _)
      (fun inner hinner path => accounted_nested hserve hplanned hinner path) world h
  · rw [Work.explain_apply_snd]
    have hgrows := (World.container_grows family).construct creation.member.has creation.owner className
      constructor inputs ready
    have hkeeping := (World.container_keeping family start).construct creation.member.has creation.owner
      className constructor inputs ready hready.keeping
    obtain ⟨result, made, construction, hrun, rfl, hmade⟩ :=
      construct_cases creation.member.registry creation.owner className constructor inputs ready
    rw [hrun] at hgrows hkeeping ⊢
    refine ⟨hready.grows.trans hgrows, hkeeping, fun construction earlier hcall => ?_⟩
    rcases List.suffix_cons_iff.mp hcall with heq | hrest
    · -- the call that was just made
      obtain ⟨hnow, rfl⟩ := List.cons.inj heq
      cases hnow
      refine .inr ⟨creation, hplanned, rfl, rfl, hclass, fun hsome => ?_, depth, world, ready, hrequired,
        hinputs, rfl, hgrows⟩
      cases result with
      | error stop => cases hsome
      | ok value =>
        obtain ⟨blueprint, hblueprint, hvalue⟩ := hmade value rfl
        exact ⟨creation.member, constructor, blueprint, ready, rfl, hconstructor, hblueprint,
          congrArg some hvalue⟩
    · refine (hready.calls construction earlier hrest).imp_right ?_
      exact fun ⟨creation, hplanned, hinitialized⟩ => ⟨creation, hplanned, hinitialized.mono hgrows⟩

/-- Having the instance of a bean that is defined, where its prerequisites were had. -/
theorem accounted_instanceOf {member : family.Member} {name : String} {merged : Definition}
    (hplanned : (⟨member, name, .merged member.registry.index name, merged⟩ :
      Creation family).Planned start)
    (h : Accounted family start world)
    (hrequired : start.HadInOrder member name merged.dependsOn world) :
    Accounted family start
      (instanceOf (serve depth) depth member.registry member.ancestors name merged world).2 := by
  have hcreate : Accounted family start (guarded member.registry name
      (instantiate (serve depth) depth member.registry member.ancestors name
        (.merged member.registry.index name) merged) world).2 := by
    cases hidle : (world.state member.registry.index).inCreation.contains name with
    | true =>
      rw [guarded_of_creating _ hidle]
      exact h
    | false =>
      -- which beans are being created is not accounted for, so it may be set and set back
      have hbusy := h.creating member.registry.index
        ((world.state member.registry.index).inCreation.insert name)
      have hgrows : world.Grows (world.creating member.registry.index
          ((world.state member.registry.index).inCreation.insert name)) :=
        ⟨State.stateRelation_grown.statewise_withState (State.stateRelation_grown.inCreation _ _),
          List.suffix_refl _⟩
      have hmade := accounted_instantiate hserve hplanned hbusy (hrequired.extend hgrows)
      rcases hrun : instantiate (serve depth) depth member.registry member.ancestors name
        (.merged member.registry.index name) merged (world.creating member.registry.index
          ((world.state member.registry.index).inCreation.insert name)) with ⟨result, after⟩
      dsimp only at hmade
      rw [hrun] at hmade
      rw [guarded_of_idle hidle hrun]
      exact hmade.creating _ _
  unfold instanceOf
  split
  · unfold singletonOr
    rw [Work.state_bind_apply]
    cases (world.state member.registry.index).singletons.find? name with
    | some shared => exact h
    | none =>
      refine Work.bind_preserves hcreate fun made after _ hafter => ?_
      refine hafter.next ⟨?_, List.suffix_refl _⟩ (hafter.keeping.withState ⟨rfl, rfl⟩ rfl)
        fun _ _ hcall => hcall
      exact State.stateRelation_grown.statewise_withState (State.stateRelation_grown.keepSingleton _ _ _)
  · exact hcreate

/-- Having a bean by its name. -/
theorem accounted_fetchBean (member : family.Member) (written : String) :
    (fetchBean (serve depth) depth member.registry member.ancestors written).Keeps
      fun world after => Accounted family start world → Accounted family start after := by
  have hK := housekeeping_accounted family start
  refine fetchBean_preserves (fun _ h => ⟨h.grows, h.keeping⟩) hK.toMinding hserve.bean member
    (fun name merged hplanned world h => ?_) written
  refine Work.bind_preserves
    (hK.realizePrerequisites hserve.bean member.has name merged world h) fun _ second hrequired hsecond => ?_
  exact accounted_instanceOf hserve hplanned hsecond ((realizePrerequisites_eq_ok hrequired).since h.grows)

end

/-- **All calls of constructors are accounted for at every depth.** -/
theorem accounting (family : Family) (start : World) : ∀ depth : Nat, Accounting family start depth
  | 0 => ⟨fun _ _ _ _ h => h, fun _ _ _ _ h _ => h⟩
  | depth + 1 => by
    have hserve := accounting family start depth
    have hK := housekeeping_accounted family start
    refine ⟨fun chain name hf => ?_, fun creation hplanned howner world h hrequired => ?_⟩
    · cases chain with
      | nil => exact hK.fail _
      | cons registry ancestors =>
        refine hK.bind (accounted_fetchBean hserve ⟨registry, ancestors, hf⟩ name) fun value =>
          hK.bind (Work.keeps_note fun world h => ?_) fun _ => hK.pure _
        exact h.next ((World.container_grows family).served registry.index name value world)
          (h.keeping.of_states rfl) (journalRelation_noCalls.cons _ _ (fun _ => nofun))
    · have hmade := accounted_instantiate hserve hplanned h hrequired
      rw [howner] at hmade
      exact hmade

/-! ## What serves the parts of a definition -/

namespace World

/-- How the bean came about that was had for a name between two worlds: it was there before; or its
constructor was called in between and made it; or it is one of an ancestor. -/
inductive Provided (before after : World) : Chain → String → Prop
  | kept {registry : Registry} {ancestors : Chain} {written : String}
      (hkept : (before.state registry.index).singletons.contains (before.sought registry written) =
        true) :
      Provided before after (registry :: ancestors) written
  | made {registry : Registry} {ancestors : Chain} {written : String} {new : List Event}
      {construction : Construction} (hjournal : after.journal = new ++ before.journal)
      (hcalled : construction ∈ attempts registry.index (before.sought registry written) new)
      (hmade : construction.made.isSome = true) :
      Provided before after (registry :: ancestors) written
  | above {registry : Registry} {ancestors : Chain} {written : String}
      (hunknown : (before.state registry.index).containsLocal written = false)
      (h : Provided before after ancestors (before.passedOn registry written)) :
      Provided before after (registry :: ancestors) written

theorem Provided.extend {before between after : World} {chain : Chain} {written : String}
    (h : before.Provided between chain written) (hafter : between.journal <:+ after.journal) :
    before.Provided after chain written := by
  induction h with
  | kept hkept => exact .kept hkept
  | @made _ _ _ new _ hjournal hcalled hmade =>
    obtain ⟨more, hmore⟩ := hafter
    have hall : after.journal = (more ++ new) ++ before.journal := by
      rw [← hmore, hjournal, List.append_assoc]
    refine .made hall ?_ hmade
    rw [attempts_append]
    exact List.mem_append_right _ hcalled
  | above hunknown _ ih => exact .above hunknown ih

end World

/-- Having the inputs of a bean takes nothing back. -/
theorem Creation.grows_inputs (creation : Creation family) {depth : Nat} {world ready : World}
    {result : Except Stop BeanInputs}
    (h : (creation.resolution depth).inputs world = (result, ready)) : world.Grows ready :=
  ((World.container_grows family).inputs_mem (World.container_grows family).toCompositional
    ((World.container_grows family).serve_within depth) creation.member depth creation.name
    creation.owner creation.definition).run h

/-- If a bean is created, its inputs were had, and its constructor was called with them and made it. -/
theorem instantiate_eq_ok {handler : Handler} {depth : Nat} {registry : Registry} {ancestors : Chain}
    {name : String} {owner : Owner} {definition : Definition} {value : Value} {world after : World}
    (h : instantiate handler depth registry ancestors name owner definition world =
      (.ok value, after)) :
    ∃ inputs ready construction,
      (registry.resolution ancestors handler depth name owner definition).inputs world =
        (.ok inputs, ready) ∧
      after.journal = .constructed construction :: ready.journal ∧
      construction.registry = registry.index ∧ construction.owner = owner ∧
      construction.inputs = inputs ∧ construction.made = some value ∧ ready.Grows after := by
  rcases instantiate_cases handler depth registry ancestors name owner definition with
    ⟨failure, heq⟩ | ⟨className, constructor, reword, -, -, heq⟩
  · rw [heq] at h
    cases h
  · rw [heq] at h
    obtain ⟨inputs, ready, hinputs, hconstruct⟩ := Work.bind_eq_ok h
    obtain ⟨result, made, construction, hrun, rfl, -⟩ :=
      construct_cases registry owner className constructor inputs ready
    have hcall := Work.explain_eq_ok hconstruct
    have hgrows := ((World.container_grows (Family.lone registry)).construct registry.lone.has owner
      className constructor inputs).run hcall
    rw [hrun] at hcall
    cases hcall
    exact ⟨inputs, ready, _, hinputs, rfl, rfl, rfl, rfl, rfl, hgrows⟩

section

variable {depth : Nat} {written name : String} {merged : Definition} {value : Value}
  {world after : World}

/-- If a bean is created while it counts as being created, its constructor was called and made it. -/
theorem guarded_eq_ok (member : family.Member)
    (h : guarded member.registry name (instantiate (serve depth) depth member.registry
      member.ancestors name (.merged member.registry.index name) merged) world = (.ok value, after)) :
    ∃ construction earlier, after.journal = .constructed construction :: earlier ∧
      world.journal <:+ earlier ∧ construction.owner = .merged member.registry.index name ∧
      construction.made = some value := by
  cases hidle : (world.state member.registry.index).inCreation.contains name with
  | true =>
    rw [guarded_of_creating _ hidle] at h
    cases h
  | false =>
    rcases hrun : instantiate (serve depth) depth member.registry member.ancestors name
      (.merged member.registry.index name) merged (world.creating member.registry.index
        ((world.state member.registry.index).inCreation.insert name)) with ⟨result, final⟩
    rw [guarded_of_idle hidle hrun] at h
    cases h
    obtain ⟨inputs, ready, construction, hinputs, hjournal, -, howner, -, hmade, -⟩ :=
      instantiate_eq_ok hrun
    have hgrows := Creation.grows_inputs ⟨member, name, .merged member.registry.index name, merged⟩
      hinputs
    exact ⟨construction, ready.journal, hjournal, hgrows.2, howner, hmade⟩

/-- If the instance of a bean is had that was not kept, its constructor was called and made it. -/
theorem instanceOf_provides (member : family.Member)
    (hnone : (world.state member.registry.index).singletons.find? name = none)
    (h : instanceOf (serve depth) depth member.registry member.ancestors name merged world =
      (.ok value, after)) :
    ∃ construction earlier, after.journal = .constructed construction :: earlier ∧
      world.journal <:+ earlier ∧ construction.owner = .merged member.registry.index name ∧
      construction.made.isSome = true := by
  unfold instanceOf at h
  split at h
  · unfold singletonOr at h
    rw [Work.state_bind_apply, hnone] at h
    obtain ⟨made, between, hmade, hend⟩ := Work.bind_eq_ok h
    obtain ⟨construction, earlier, hjournal, hbefore, howner, hsome⟩ := guarded_eq_ok member hmade
    cases hend
    exact ⟨construction, earlier, hjournal, hbefore, howner, by rw [hsome]; rfl⟩
  · obtain ⟨construction, earlier, hjournal, hbefore, howner, hsome⟩ := guarded_eq_ok member h
    exact ⟨construction, earlier, hjournal, hbefore, howner, by rw [hsome]; rfl⟩

theorem Event.construction?_eq_some {index : Nat} {name : String} {event : Event}
    {construction : Construction} (h : event.construction? index name = some construction) :
    event = .constructed construction ∧ construction.owner = .merged index name := by
  cases event with
  | constructed made =>
    unfold Event.construction? at h
    dsimp only at h
    split at h
    · next howner =>
      cases h
      exact ⟨rfl, howner⟩
    · cases h
  | _ => cases h

theorem mem_attempts {index : Nat} {name : String} {construction : Construction} {events : List Event}
    (hmem : .constructed construction ∈ events) (howner : construction.owner = .merged index name) :
    construction ∈ attempts index name events :=
  List.mem_filterMap.mpr ⟨_, hmem, if_pos howner⟩

/-- An attempt is a call that stands somewhere in the journal. -/
theorem constructed_of_attempts {index : Nat} {name : String} {journal : List Event}
    (h : (attempts index name journal).isEmpty = false) :
    ∃ construction earlier, .constructed construction :: earlier <:+ journal ∧
      construction.owner = .merged index name := by
  obtain ⟨construction, hmem⟩ := List.exists_mem_of_ne_nil _ (List.isEmpty_eq_false_iff.mp h)
  obtain ⟨event, hevent, hconstruction⟩ := List.mem_filterMap.mp hmem
  obtain ⟨rfl, howner⟩ := Event.construction?_eq_some hconstruction
  obtain ⟨later, earlier, hjournal⟩ := List.append_of_mem hevent
  exact ⟨construction, earlier, ⟨later, hjournal.symm⟩, howner⟩

/-- A bean that is defined and was not kept is made by its constructor, for what it requires or for the
request itself. -/
theorem Chain.bean_made (hundefined : world.AliasesUndefined) (member : family.Member)
    (hnone : (world.state member.registry.index).singletons.find?
      (world.sought member.registry written) = none)
    (hdefined : (world.state member.registry.index).definitions.contains
      (world.sought member.registry written) = true)
    (h : Chain.bean depth member.chain written world = (.ok value, after)) :
    world.Provided after member.chain written := by
  obtain ⟨lower, between, -, hfetch, rfl⟩ := bean_eq_ok h
  obtain ⟨merged, first, second, instance_, third, hmerged, hrequired, hinstance, hexposed⟩ :=
    fetchBean_eq_ok rfl hnone hdefined hfetch
  have hA := housekeeping_advancing family
  have hfirst := (hA.merged member.has _).run hmerged hundefined
  have hsecond := hfirst.trans ((hA.realizePrerequisites (serve_advancing family lower).1 member.has _
    merged).run hrequired (hfirst.aliasesUndefined hundefined))
  have hK := World.container_grows family
  have hbean := hK.serve_within lower
  have hthird : second.Grows third := (hK.instanceOf hbean (hK.nesting hK.toCompositional hbean)
    member.has lower _ merged).run hinstance
  have hend : third.Grows between := (hK.exposed member.has instance_ written _ _).run hexposed
  have hafter : third.journal <:+ (between.noting (.served member.registry.index written value)).journal :=
    hend.2.trans (List.suffix_cons _ _)
  obtain ⟨new, hnew, hfates⟩ := hsecond.fates
  cases hbetween : (second.state member.registry.index).singletons.find?
      (world.sought member.registry written) with
  | some shared =>
    -- the prerequisites brought it about
    cases hfates member.registry.index (world.sought member.registry written) with
    | unchanged hsame => cases hbetween.symm.trans (hsame.trans hnone)
    | made _ _ _ _ _ hshares =>
      obtain ⟨_, -, -, construction, hmem, -, -, -, hmade⟩ := hshares.made
      have hprovided : world.Provided second member.chain written :=
        .made hnew hmem (by rw [hmade]; rfl)
      exact hprovided.extend (hthird.2.trans hafter)
  | none =>
    obtain ⟨construction, earlier, hjournal, ⟨more, hmore⟩, howner, hmade⟩ :=
      instanceOf_provides member hbetween hinstance
    have hall : third.journal = (.constructed construction :: (more ++ new)) ++ world.journal := by
      rw [hjournal, ← hmore, hnew, List.cons_append, List.append_assoc]
    have hprovided : world.Provided third member.chain written :=
      .made hall (mem_attempts List.mem_cons_self howner) hmade
    exact hprovided.extend hafter

/-- **Whatever bean is had, it was there before, or its constructor was called and made it.** -/
theorem Chain.bean_provided (hundefined : world.AliasesUndefined) :
    ∀ {chain : Chain} {depth : Nat} {written : String} {after : World}, family.Has chain →
      Chain.bean depth chain written world = (.ok value, after) → world.Provided after chain written
  | [], depth, written, after, _, h => absurd ⟨depth, value, after, h⟩ (World.not_obtains_nil written)
  | registry :: ancestors, depth, written, after, hf, h => by
    cases hlocal : (world.state registry.index).containsLocal written with
    | false =>
      refine .above hlocal ?_
      cases depth with
      | zero => cases h
      | succ depth =>
        by_cases hne : ancestors = []
        · subst hne
          rw [World.bean_of_not_containsLocal_last hlocal] at h
          cases h
        · rw [World.bean_of_not_containsLocal hne hlocal] at h
          obtain ⟨value', between, hhad, hend⟩ := Work.bind_eq_ok h
          cases hend
          exact (Chain.bean_provided hundefined (family.ancestors_has hf) hhad).extend
            (List.suffix_cons _ _)
    | true =>
      cases hkept : (world.state registry.index).singletons.contains (world.sought registry written) with
      | true => exact .kept hkept
      | false =>
        have hdefined : (world.state registry.index).definitions.contains
            (world.sought registry written) = true := (Bool.or_eq_true_iff.mp hlocal).resolve_left
          (by unfold World.sought at hkept; simp [hkept])
        exact Chain.bean_made hundefined ⟨registry, ancestors, hf⟩
          ((Table.find?_eq_none_iff _ _).mpr hkept) hdefined h

end

/-! ### Beans and nested beans -/

namespace World

/-- The bean of a name was had between two worlds: it was there, or its constructor made it. -/
def Served (world after : World) (chain : Chain) (name : String) : Prop :=
  ∃ depth before value between, world.Grows before ∧
    Chain.bean depth chain name before = (.ok value, between) ∧
    before.Provided between chain name ∧ between.Grows after

/-- The constructor for a new bean was called between two worlds, and made it. -/
def Called (world after : World) (creation : Creation family) : Prop :=
  ∃ construction earlier, .constructed construction :: earlier <:+ after.journal ∧
    world.journal <:+ earlier ∧ construction.registry = creation.member.registry.index ∧
    construction.owner = creation.owner ∧ construction.inputs.beanName = creation.name ∧
    construction.made.isSome = true

theorem Grows.aliasesUndefined {world after : World} (h : world.Grows after)
    (hundefined : world.AliasesUndefined) : after.AliasesUndefined :=
  hundefined.of_sameSources fun index => (h.1 index).sources

theorem Obtained.served {world after : World} {chain : Chain} {name : String}
    (h : world.Obtained after chain name) (hf : family.Has chain) (hundefined : world.AliasesUndefined) :
    world.Served after chain name := by
  obtain ⟨depth, before, value, between, hbefore, hhad, hafter⟩ := h
  exact ⟨depth, before, value, between, hbefore, hhad,
    Chain.bean_provided (hbefore.aliasesUndefined hundefined) hf hhad, hafter⟩

/-- A nested bean that was created was made by its constructor. -/
theorem Created.called {world after : World} {creation : Creation family}
    (h : world.Created after creation) (howner : creation.owner = .nothing) :
    world.Called after creation := by
  obtain ⟨depth, before, required, value, between, hbefore, hrequired, hcreate, hafter⟩ := h
  cases depth with
  | zero => cases hcreate
  | succ depth =>
    obtain ⟨inputs, ready, construction, hinputs, hjournal, hregistry, howner', rfl, hmade, -⟩ :=
      instantiate_eq_ok hcreate
    have hready := Creation.grows_inputs ⟨creation.member, creation.name, .nothing, creation.definition⟩
      hinputs
    refine ⟨construction, ready.journal, ?_, ?_, hregistry, howner'.trans howner.symm, ?_, ?_⟩
    · rw [← hjournal]
      exact hafter.2
    · exact ((hbefore.trans hrequired.grows).trans hready).2
    · obtain ⟨_, _, -, hrest⟩ := Work.bind_eq_ok hinputs
      obtain ⟨_, _, -, hend⟩ := Work.bind_eq_ok hrest
      exact (congrArg BeanInputs.beanName (Except.ok.inj (Prod.mk.inj hend).1)).symm
    · rw [hmade]
      rfl

end World

/-- Everything that the definition of a bean asks for was there before a world and after another one:
each reference of the container itself, each bean meant for a dependency, each nested bean. And each is
noted. -/
structure Creation.Supplied (creation : Creation family) (depth : Nat) (world after : World) : Prop where
  references : ∀ reference, .reference reference ∈ creation.definition.leaves →
    reference.inParent = false →
      ∃ part name, world.Aims after creation.member depth reference part name ∧
        world.Served after part name ∧
        (after.state creation.member.registry.index).Noted name creation.name
  dependencies : ∀ dependency, .dependency dependency ∈ creation.definition.leaves →
    world.Unmatched after dependency creation.name creation.member.chain ∨
      ∃ part names, part <:+ creation.member.chain ∧
        world.Selected after dependency creation.name part names ∧
        ∀ name ∈ names, world.Served after part name ∧
          (world.knows creation.member.chain name = true →
            (after.state creation.member.registry.index).Noted name creation.name)
  nested : ∀ inner ∈ creation.definition.nested,
    ∃ before merged given, world.Grows before ∧
      before.mergedNested creation.member.chain inner.1 inner.2 (some creation.definition) =
        .ok merged ∧
      (merged.definition.isSingleton = false → given = inner.1) ∧
      given ∈ (after.state creation.member.registry.index).containedIn creation.name ∧
      world.Called after (⟨creation.member, given, .nothing, merged.definition⟩ : Creation family)

/-- **If the inputs of a bean are had, everything that its definition asks for was there.** -/
theorem Creation.supplied {creation : Creation family} {depth : Nat} {world after : World}
    {inputs : BeanInputs} (hundefined : world.AliasesUndefined)
    (h : (creation.resolution depth).inputs world = (.ok inputs, after)) :
    creation.Supplied depth world after := by
  have hK := World.container_grows family
  have hp : (creation.resolution depth).provider.Within fun _ work => work.Keeps World.Grows :=
    hK.provider_within hK.toCompositional (hK.serve_within depth) creation.member.has depth
  have hleaves := Resolution.inputs_eq_ok hp h
  -- each leaf was resolved at some time in between, and what was there then is there afterwards
  have hserved {before between : World} {part : Chain} {name : String} (hbefore : world.Grows before)
      (hafter : between.Grows after) (hpart : part <:+ creation.member.chain)
      (hhad : before.Obtained between part name) : world.Served after part name :=
    (hhad.mono hbefore hafter).served (family.has_of_suffix creation.member.chain_has hpart) hundefined
  refine ⟨fun reference hleaf hlocal => ?_, fun dependency hleaf => ?_, fun inner hinner => ?_⟩
  · obtain ⟨path, steps, before, value, between, hbefore, hrun, hafter⟩ := hleaves _ hleaf
    rw [Resolution.resolve] at hrun
    obtain ⟨part, name, haims, hhad, hnoted⟩ := Resolution.resolveReference_eq_ok rfl hlocal hrun
    exact ⟨part, name, haims.mono hbefore hafter, hserved hbefore hafter haims.part_suffix hhad,
      (hafter.1 _).noted hnoted⟩
  · obtain ⟨path, steps, before, value, between, hbefore, hrun, hafter⟩ := hleaves _ hleaf
    rw [Resolution.resolve] at hrun
    refine (Resolution.resolveDependency_eq_ok rfl hrun).imp (·.mono hbefore hafter) ?_
    rintro ⟨part, names, hpart, hselected, hnames⟩
    refine ⟨part, names, hpart, hselected.mono hbefore hafter, fun name hname => ?_⟩
    obtain ⟨hhad, hnoted⟩ := hnames name hname
    exact ⟨hserved hbefore hafter hpart hhad,
      fun hknown => (hafter.1 _).noted (hnoted (hbefore.knows hknown))⟩
  · obtain ⟨leaf, hleaf, hinner⟩ := DefinitionOf.mem_nested_iff.mp hinner
    obtain ⟨path, steps, before, value, between, hbefore, hrun, hafter⟩ := hleaves _ hleaf
    have hnested : ∃ path, (creation.resolution depth).resolveNested path inner.1 inner.2 before =
        (.ok value, between) := by
      cases leaf with
      | inner identity definition =>
        cases hinner
        rw [Resolution.resolve] at hrun
        exact ⟨path, hrun⟩
      | holder name shorthands definition =>
        cases hinner
        rw [Resolution.resolve] at hrun
        exact ⟨path, hrun⟩
      | _ => cases hinner
    obtain ⟨path, hrun⟩ := hnested
    obtain ⟨merged, given, hmerged, hgiven, hcontained, hcreated⟩ :=
      Resolution.resolveNested_eq_ok rfl hrun
    exact ⟨before, merged, given, hbefore, hmerged, hgiven,
      ((hafter.1 _).contained.names _).subset hcontained, (hcreated.mono hbefore hafter).called rfl⟩

/-! ## Where something fails -/

/-- Where a prerequisite cannot be had, having the bean ends there. -/
theorem bean_of_prerequisite_fails {member : family.Member} {depth : Nat} {written : String}
    {merged : Definition} {world first after : World} {stop : Stop}
    (hnone : (world.state member.registry.index).singletons.find?
      (world.sought member.registry written) = none)
    (hdefined : (world.state member.registry.index).definitions.contains
      (world.sought member.registry written) = true)
    (hmerged : mergedDefinition member.chain (world.sought member.registry written) world =
      (.ok merged, first))
    (hfails : realizePrerequisites (serve depth) member.registry member.ancestors
      (world.sought member.registry written) merged first = (.error stop, after)) :
    Chain.bean (depth + 1) member.chain written world = (.error stop, after) := by
  have hfetch : fetchBean (serve depth) depth member.registry member.ancestors written world =
      (.error stop, after) := by
    unfold fetchBean
    rw [Work.state_bind_apply]
    unfold World.sought at hnone hdefined hmerged hfails
    dsimp only
    rw [hnone, if_pos hdefined]
    unfold Family.Member.chain at hmerged
    dsimp only
    rw [Work.bind_apply_ok hmerged]
    exact Work.bind_apply_error hfails
  exact Work.bind_apply_error hfetch

/-- Where an argument or a property cannot be had, the constructor is not called. -/
theorem instantiate_of_input_fails {creation : Creation family} {depth : Nat} {world after : World}
    {stop : Stop} (hfails : (creation.resolution depth).inputs world = (.error stop, after)) :
    NoCalls after.journal (instantiate (serve depth) depth creation.member.registry
      creation.member.ancestors creation.name creation.owner creation.definition world).2.journal := by
  rcases instantiate_cases (serve depth) depth creation.member.registry creation.member.ancestors
      creation.name creation.owner creation.definition with
    ⟨failure, heq⟩ | ⟨className, constructor, reword, -, -, heq⟩
  · -- it fails before, for want of a class
    have hgrows := creation.grows_inputs hfails
    rw [heq]
    exact fun construction earlier hcall => hcall.trans hgrows.2
  · rw [heq]
    change NoCalls after.journal (((creation.resolution depth).inputs >>= _) world).2.journal
    rw [Work.bind_apply_error hfails]
    exact fun _ _ hcall => hcall

/-- Where a prerequisite of a nested bean cannot be had, making it ends there. -/
theorem buildNamed_of_prerequisite_fails {r : Resolution} {given : String} {definition : Definition}
    {world after : World} {stop : Stop}
    (hfails : (definition.dependsOn.forM fun prerequisite => do
      r.provider.noteDependent prerequisite given
      discard (r.provider.lookup.bean prerequisite) : Work Unit) world = (.error stop, after)) :
    r.buildNamed given definition world = (.error stop, after) :=
  Work.bind_apply_error hfails

/-! ## The order of a run -/

/-- What came before a call of a constructor for a bean. First its prerequisites were had, in order; then
everything was there that its definition asks for, and its inputs were had, with which the constructor
is called. -/
structure Creation.Prepared (creation : Creation family) (start : World) (construction : Construction)
    (earlier : List Event) : Prop where
  registry : construction.registry = creation.member.registry.index
  owner : construction.owner = creation.owner
  className : creation.definition.className = some construction.className
  preparation : ∃ depth required ready,
    start.HadInOrder creation.member creation.name creation.definition.dependsOn required ∧
    creation.Supplied depth required ready ∧
    (creation.resolution depth).inputs required = (.ok construction.inputs, ready) ∧
    ready.journal = earlier

/-- **A constructor is called only after everything that the bean needs is there.** Whatever bean is
asked for: each call of a constructor on the way is for a bean that is created by a merged definition,
and before it the prerequisites of that definition were had in order, and whatever its arguments and
properties ask for was there or was made. Where a prerequisite, an argument or a property cannot be had,
the work on the bean ends and its constructor is not called. -/
theorem Chain.bean_initializes {start : World} (h : Reachable family start) (member : family.Member)
    (depth : Nat) (written : String) :
    (∀ construction earlier, .constructed construction :: earlier <:+
          (Chain.bean depth member.chain written start).2.journal →
        .constructed construction :: earlier <:+ start.journal ∨
          ∃ creation : Creation family, creation.Planned start ∧
            creation.Prepared start construction earlier) ∧
      (∀ (member : family.Member) (depth : Nat) (written : String) (merged : Definition)
          (world first after : World) (stop : Stop),
        (world.state member.registry.index).singletons.find? (world.sought member.registry written) =
            none →
        (world.state member.registry.index).definitions.contains
            (world.sought member.registry written) = true →
        mergedDefinition member.chain (world.sought member.registry written) world =
            (.ok merged, first) →
        realizePrerequisites (serve depth) member.registry member.ancestors
            (world.sought member.registry written) merged first = (.error stop, after) →
        Chain.bean (depth + 1) member.chain written world = (.error stop, after)) ∧
      (∀ (creation : Creation family) (depth : Nat) (world after : World) (stop : Stop),
        (creation.resolution depth).inputs world = (.error stop, after) →
        NoCalls after.journal (instantiate (serve depth) depth creation.member.registry
          creation.member.ancestors creation.name creation.owner creation.definition
          world).2.journal) ∧
      ∀ (r : Resolution) (given : String) (definition : Definition) (world after : World) (stop : Stop),
        (definition.dependsOn.forM fun prerequisite => do
          r.provider.noteDependent prerequisite given
          discard (r.provider.lookup.bean prerequisite) : Work Unit) world = (.error stop, after) →
        r.buildNamed given definition world = (.error stop, after) := by
  refine ⟨fun construction earlier hcall => ?_, fun _ _ _ _ _ _ _ _ => bean_of_prerequisite_fails,
    fun _ _ _ _ _ => instantiate_of_input_fails, fun _ _ _ _ _ _ => buildNamed_of_prerequisite_fails⟩
  have haccounted := (accounting family start depth).bean _ written member.chain_has start
    (.refl family start)
  refine (haccounted.calls construction earlier hcall).imp_right ?_
  rintro ⟨creation, hplanned, hregistry, howner, hclass, -, depth, required, ready, hrequired, hinputs,
    hready, -⟩
  refine ⟨creation, hplanned, hregistry, howner, hclass, depth, required, ready, hrequired, ?_, hinputs,
    hready⟩
  exact creation.supplied (hrequired.grows.aliasesUndefined h.aliasesUndefined) hinputs

/-! ### A bean with a reference and a nested bean -/

/-- The bean `a` refers to `c` and has a nested bean, which needs `b` to exist first. -/
def orderedOperations : List (Operation (Family.lone plainRegistry)) :=
  let member := Registry.lone plainRegistry
  [.register member (.definition "b" { className := some "P" }),
    .register member (.definition "c" { className := some "P" }),
    .register member (.definition "a"
      { className := some "P"
        properties := [("x", .reference { name := some "c" }),
          ("y", .inner "i" { className := some "P", dependsOn := ["b"] })] })]

/-- What came before the call of the constructor of `a`. -/
theorem bean_initializes_ordered :
    ∃ construction earlier, .constructed construction :: earlier <:+
        (Chain.bean 3 (Registry.lone plainRegistry).chain "a" (World.after orderedOperations)).2.journal ∧
      construction.owner = .merged 0 "a" ∧
      ∃ creation : Creation (Family.lone plainRegistry),
        creation.Planned (World.after orderedOperations) ∧
        creation.Prepared (World.after orderedOperations) construction earlier := by
  obtain ⟨construction, earlier, hsuffix, howner⟩ := constructed_of_attempts
    (show (attempts 0 "a" (Chain.bean 3 (Registry.lone plainRegistry).chain "a"
      (World.after orderedOperations)).2.journal).isEmpty = false by decide +kernel)
  refine ⟨construction, earlier, hsuffix, howner, ?_⟩
  refine ((Chain.bean_initializes ⟨orderedOperations, rfl⟩ (Registry.lone plainRegistry) 3 "a").1
    construction earlier hsuffix).resolve_left fun hbefore => ?_
  have hnothing : (World.after orderedOperations).journal = [] := rfl
  rw [hnothing] at hbefore
  exact List.cons_ne_nil _ _ (List.suffix_nil.mp hbefore)

end Injector
