import Injector.Proofs.Creation.InitializationOrder
import Injector.Proofs.Creation.Stability
import Injector.Proofs.Names.NestedNames

/-!
# What is noted stays noted

Whatever a bean is made with is noted to be depended on, under what its name stands for at that moment,
and from then on both questions tell of it: which beans depend on a bean, and on which beans a bean
depends (`State.Tells`). Links are never taken back, neither by a registration nor by a request
(`World.followed_remembers`), and the two tables of links never disagree (`Reachable.mirrored`).

So of every bean that is made it can be told what it was made with (`dependence_told`). The names under
which this is noted are those that were asked for. They keep the mark of a name that asks for a factory
itself, which a question for the factory's dependents does not have (`not_told_of_marked_reference`).
-/

namespace Injector

variable {family : Family}

/-! ## Links that stay -/

/-- Links are never taken back. -/
structure State.Remembers (state after : State) : Prop where
  dependents : LinksGrow state.dependents after.dependents
  dependencies : LinksGrow state.dependencies after.dependencies
  contained : LinksGrow state.contained after.contained

theorem State.Remembers.refl (state : State) : state.Remembers state :=
  ⟨.refl _, .refl _, .refl _⟩

theorem State.Remembers.trans (first second third : State) (h : first.Remembers second)
    (h' : second.Remembers third) : first.Remembers third :=
  ⟨h.dependents.trans h'.dependents, h.dependencies.trans h'.dependencies,
    h.contained.trans h'.contained⟩

theorem State.Grown.remembers {state after : State} (h : state.Grown after) : state.Remembers after :=
  ⟨h.dependents, h.dependencies, h.contained⟩

/-- Whatever is asked, what was done before stays done. -/
theorem Inquiry.grows (member : family.Member) (depth : Nat) (inquiry : Inquiry) :
    (inquiry.answer depth member.registry member.ancestors).Keeps World.Grows :=
  (World.container_grows family).answer member.has
    (fun _ _ => ⟨Statewise.refl .refl _, List.suffix_refl _⟩) depth inquiry

/-- No operation takes a link back. -/
theorem Operation.remembers (operation : Operation family) (world : World) :
    Statewise State.Remembers world (operation.next world) := by
  intro index
  cases operation with
  | register member registration =>
    obtain ⟨hdependents, hdependencies, hcontained⟩ :
        ((member.registry.take registration world).2.state index).dependents = _ ∧ _ :=
      member.registry.take_links registration world index
    refine ⟨?_, ?_, ?_⟩
    · exact hdependents ▸ .refl _
    · exact hdependencies ▸ .refl _
    · exact hcontained ▸ .refl _
  | inquire member depth inquiry => exact ((inquiry.grows member depth world).1 index).remembers

/-- **Whatever is done afterwards takes no link back.** -/
theorem World.followed_remembers (world : World) (operations : List (Operation family)) :
    Statewise State.Remembers world (world.followed operations) := by
  induction operations using List.reverseRecOn with
  | nil => exact Statewise.refl .refl world
  | append_singleton operations operation ih =>
    rw [World.followed_concat]
    exact Statewise.trans State.Remembers.trans _ _ _ ih (operation.remembers _)

/-- What holds of the tables of dependencies at the start, and stays true whatever is asked, is true in
every world that a run leads to: no registration touches those tables. -/
theorem Reachable.of_links {P : State → Prop} (hstart : P {})
    (hlinks : ∀ state after : State, after.dependents = state.dependents →
      after.dependencies = state.dependencies → P state → P after)
    (hinquiry : ∀ (member : family.Member) (depth : Nat) (inquiry : Inquiry),
      (inquiry.answer depth member.registry member.ancestors).Keeps
        (Statewise fun state after => P state → P after))
    {world : World} (h : Reachable family world) (index : Nat) : P (world.state index) := by
  refine h.induction (P := fun world => ∀ index, P (world.state index)) (fun _ => hstart)
    (fun world operation _ hbefore index => ?_) index
  cases operation with
  | register member registration =>
    obtain ⟨hdependents, hdependencies, -⟩ :
        ((member.registry.take registration world).2.state index).dependents = _ ∧ _ :=
      member.registry.take_links registration world index
    exact hlinks _ _ hdependents hdependencies (hbefore index)
  | inquire member depth inquiry => exact hinquiry member depth inquiry world index (hbefore index)

/-- **Whatever depends on a bean has it as a dependency, in every world that a run leads to.** -/
theorem Reachable.mirrored {world : World} (h : Reachable family world) :
    ∀ index, (world.state index).Mirrored := by
  refine h.of_links (P := State.Mirrored) (fun _ _ hlink => nomatch hlink)
    (fun state after hdependents hdependencies hbefore => ?_)
    fun member depth inquiry world index => ((inquiry.grows member depth world).1 index).mirrored
  unfold State.Mirrored
  rw [hdependents, hdependencies]
  exact hbefore

/-! ## What is told -/

/-- Of a dependency that was noted in an earlier state it is told: the bean that depends is told to
depend on what the name stood for, and that bean, as long as its name is no alias, is told to be depended
on. -/
def State.Tells (earlier state : State) (name dependent : String) : Prop :=
  earlier.canonicalName name ∈ state.dependenciesOf dependent ∧
    (state.aliases.contains (earlier.canonicalName name) = false →
      dependent ∈ state.dependentsOf (earlier.canonicalName name))

/-- What is noted during a request is told ever after. -/
theorem State.Noted.told {start ready later : State} {name dependent : String}
    (h : ready.Noted name dependent) (hmirrored : start.Mirrored) (hgrown : start.Grown ready)
    (hlater : ready.Remembers later) : start.Tells later name dependent := by
  unfold Noted at h
  rw [hgrown.canonicalName] at h
  refine ⟨(hlater.dependencies.names _).subset (hgrown.mirrored hmirrored _ _ h), fun hplain => ?_⟩
  have hcanonical : later.canonicalName (start.canonicalName name) = start.canonicalName name :=
    canonicalName_of_end ((Table.find?_eq_none_iff _ _).mpr hplain)
  unfold dependentsOf
  rw [hcanonical]
  exact (hlater.dependents.names _).subset h

/-- Everything that the definition of a bean asks for was had between two worlds, and it is told of in a
later state. A nested bean is told to be contained; of one that was contained before, what was noted
then stays. -/
structure Creation.Told (creation : Creation family) (start ready : World) (later : State) :
    Prop where
  references : ∀ reference, .reference reference ∈ creation.definition.leaves →
    reference.inParent = false →
      ∃ depth part name, start.Aims ready creation.member depth reference part name ∧
        start.Served ready part name ∧
        (start.state creation.member.registry.index).Tells later name creation.name
  dependencies : ∀ dependency, .dependency dependency ∈ creation.definition.leaves →
    start.Unmatched ready dependency creation.name creation.member.chain ∨
      ∃ part names, part <:+ creation.member.chain ∧
        start.Selected ready dependency creation.name part names ∧
        ∀ name ∈ names, start.Served ready part name ∧
          (start.knows creation.member.chain name = true →
            (start.state creation.member.registry.index).Tells later name creation.name)
  nested : ∀ inner ∈ creation.definition.nested,
    ∃ given definition, (definition.isSingleton = false → given = inner.1) ∧
      start.Called ready (⟨creation.member, given, .nothing, definition⟩ : Creation family) ∧
      given ∈ later.containedIn creation.name ∧
      (given ∈ (start.state creation.member.registry.index).containedIn creation.name ∨
        (start.state creation.member.registry.index).Tells later given creation.name)

theorem World.Served.since {world between after : World} {chain : Chain} {name : String}
    (h : between.Served after chain name) (hbefore : world.Grows between) :
    world.Served after chain name := by
  obtain ⟨depth, before, value, had, hgrows, hhad, hprovided, hafter⟩ := h
  exact ⟨depth, before, value, had, hbefore.trans hgrows, hhad, hprovided, hafter⟩

theorem World.Called.since {world between after : World} {creation : Creation family}
    (h : between.Called after creation) (hbefore : world.Grows between) :
    world.Called after creation := by
  obtain ⟨construction, earlier, hcall, hearlier, hrest⟩ := h
  exact ⟨construction, earlier, hcall, hbefore.2.trans hearlier, hrest⟩

/-- **What a bean is supplied with is told of ever after.** -/
theorem Creation.Supplied.told {creation : Creation family} {depth : Nat}
    {start world ready : World} {later : State} (h : creation.Supplied depth world ready)
    (hmirrored : (start.state creation.member.registry.index).Mirrored) (hbefore : start.Grows world)
    (hready : world.Grows ready)
    (hlater : (ready.state creation.member.registry.index).Remembers later) :
    creation.Told start ready later := by
  have hgrown := (hbefore.trans hready).1 creation.member.registry.index
  have htold {name : String}
      (hnoted : (ready.state creation.member.registry.index).Noted name creation.name) :
      (start.state creation.member.registry.index).Tells later name creation.name :=
    hnoted.told hmirrored hgrown hlater
  refine ⟨fun reference hleaf hlocal => ?_, fun dependency hleaf => ?_, fun inner hinner => ?_⟩
  · obtain ⟨part, name, haims, hserved, hnoted⟩ := h.references reference hleaf hlocal
    exact ⟨depth, part, name, haims.mono hbefore (.refl _), hserved.since hbefore, htold hnoted⟩
  · refine (h.dependencies dependency hleaf).imp (·.mono hbefore (.refl _)) ?_
    rintro ⟨part, names, hpart, hselected, hnames⟩
    refine ⟨part, names, hpart, hselected.mono hbefore (.refl _), fun name hname => ?_⟩
    exact ⟨(hnames name hname).1.since hbefore,
      fun hknown => htold ((hnames name hname).2 (hbefore.knows hknown))⟩
  · obtain ⟨before, merged, given, -, -, hgiven, hcontained, hcalled⟩ := h.nested inner hinner
    exact ⟨given, merged.definition, hgiven, hcalled.since hbefore,
      (hlater.contained.names _).subset hcontained,
      (hgrown.containing _ _ hcontained).imp_right htold⟩

/-! ## Requests -/

/-- Whether beans are made for an inquiry only by what containers define, and not by a definition that
is given with it. -/
def Inquiry.usesDefinitions : Inquiry → Bool
  | .creation .. | .resolution .. => false
  | _ => true

/-- All calls of constructors for such an inquiry are accounted for. -/
theorem Inquiry.accounted {start : World} (member : family.Member) (depth : Nat) {inquiry : Inquiry}
    (h : inquiry.usesDefinitions = true) :
    (inquiry.answer depth member.registry member.ancestors).Keeps
      fun world after => Accounted family start world → Accounted family start after := by
  have hK := housekeeping_accounted family start
  refine hK.toMinding.answer (accounting family start depth).bean member.has inquiry
    (fun name user _ => hK.noteDependent member.has name user)
    (fun inner outer _ => hK.noteContained member.has inner outer) ?_ ?_
  · rintro name definition rfl
    cases h
  · rintro beanName definition converter path raw times rfl
    cases h

/-- **Of every bean that is made it is told, from then on, what it was made with.** Whatever is asked of
a container: each call of a constructor is for a bean that is created by a merged definition, and every
prerequisite of it, whatever its references and dependencies were satisfied by, and every nested bean
of it is told of after any further operations. The same goes for a bean that is created by a definition
as it is, but for its prerequisites, which are not looked at. -/
theorem dependence_told {start : World} (h : Reachable family start) (member : family.Member)
    (depth : Nat) :
    (∀ inquiry : Inquiry, inquiry.usesDefinitions = true →
      ∀ construction earlier, .constructed construction :: earlier <:+
          ((Operation.inquire member depth inquiry).next start).journal →
        .constructed construction :: earlier <:+ start.journal ∨
          ∃ creation : Creation family, creation.Planned start ∧
            construction.registry = creation.member.registry.index ∧
            construction.owner = creation.owner ∧
            creation.definition.className = some construction.className ∧
            ∃ ready, ready.journal = earlier ∧
              ∀ operations : List (Operation family),
                let later := (((Operation.inquire member depth inquiry).next start).followed
                  operations).state creation.member.registry.index
                (∀ name ∈ creation.definition.dependsOn,
                  start.Served ready creation.member.chain name ∧
                  (start.state creation.member.registry.index).Tells later name creation.name) ∧
                creation.Told start ready later) ∧
      ∀ (name : String) (definition : Definition) (value : Value) (after : World),
        Chain.create depth member.chain name definition start = (.ok value, after) →
        ∃ ready construction, after.journal = .constructed construction :: ready.journal ∧
          ∀ operations : List (Operation family),
            (⟨member, name, .nothing, definition⟩ : Creation family).Told start ready
              ((after.followed operations).state member.registry.index) := by
  have hmirrored := h.mirrored
  refine ⟨fun inquiry hinquiry construction earlier hcall => ?_,
    fun name definition value after hcreate => ?_⟩
  · have haccounted := inquiry.accounted member depth hinquiry start (.refl family start)
    refine (haccounted.calls construction earlier hcall).imp_right ?_
    rintro ⟨creation, hplanned, hregistry, howner, hclass, -, depth', required, ready, hrequired, hinputs,
      hready, hgrows⟩
    refine ⟨creation, hplanned, hregistry, howner, hclass, ready, hready, fun operations => ?_⟩
    have hundefined := hrequired.grows.aliasesUndefined h.aliasesUndefined
    have hbetween : required.Grows ready := creation.grows_inputs hinputs
    -- what is noted by the time of the call is told after all further operations
    have hlater := State.Remembers.trans _ _ _ (hgrows.1 creation.member.registry.index).remembers
      (World.followed_remembers _ operations creation.member.registry.index)
    have hbefore := hrequired.grows.trans hbetween
    refine ⟨fun name hname => ?_, (creation.supplied hundefined hinputs).told
      (hmirrored _) hrequired.grows hbetween hlater⟩
    obtain ⟨hhad, hnoted⟩ := hrequired.had name hname
    refine ⟨(hhad.mono (.refl _) hbetween).served creation.member.chain_has h.aliasesUndefined, ?_⟩
    exact ((hbetween.1 _).noted hnoted).told (hmirrored _) (hbefore.1 _) hlater
  · cases depth with
    | zero => cases hcreate
    | succ depth =>
      obtain ⟨inputs, ready, construction, hinputs, hjournal, -, -, -, -, hgrows⟩ :=
        instantiate_eq_ok hcreate
      refine ⟨ready, construction, hjournal, fun operations => ?_⟩
      have hrun : ((⟨member, name, .nothing, definition⟩ : Creation family).resolution depth).inputs
          start = (.ok inputs, ready) := hinputs
      exact (Creation.supplied h.aliasesUndefined hrun).told (hmirrored _) (.refl _)
        (Creation.grows_inputs _ hrun) (State.Remembers.trans _ _ _
          (hgrows.1 member.registry.index).remembers
          (World.followed_remembers _ operations member.registry.index))

/-- What the bean `a` is made with is told, whatever is done after it was had. -/
theorem dependence_told_ordered :
    ∃ construction ready, .constructed construction :: ready.journal <:+
        ((Operation.inquire (Registry.lone plainRegistry) 3 (.bean "a")).next
          (World.after orderedOperations)).journal ∧
      construction.owner = .merged 0 "a" ∧
      ∃ creation : Creation (Family.lone plainRegistry),
        creation.Planned (World.after orderedOperations) ∧ creation.owner = .merged 0 "a" ∧
        ∀ operations : List (Operation (Family.lone plainRegistry)),
          creation.Told (World.after orderedOperations) ready
            ((((Operation.inquire (Registry.lone plainRegistry) 3 (.bean "a")).next
              (World.after orderedOperations)).followed operations).state
                creation.member.registry.index) := by
  obtain ⟨construction, earlier, hsuffix, howner⟩ := constructed_of_attempts
    (show (attempts 0 "a" ((Operation.inquire (Registry.lone plainRegistry) 3 (.bean "a")).next
      (World.after orderedOperations)).journal).isEmpty = false by decide +kernel)
  have htold := ((dependence_told ⟨orderedOperations, rfl⟩ (Registry.lone plainRegistry) 3).1 (.bean "a")
    rfl construction earlier hsuffix).resolve_left fun hbefore => ?_
  · obtain ⟨creation, hplanned, -, hcreated, -, ready, rfl, hlater⟩ := htold
    exact ⟨construction, ready, hsuffix, howner, creation, hplanned, hcreated.symm.trans howner,
      fun operations => (hlater operations).2⟩
  · have hnothing : (World.after orderedOperations).journal = [] := rfl
    rw [hnothing] at hbefore
    exact List.cons_ne_nil _ _ (List.suffix_nil.mp hbefore)

/-! ### A reference to a factory itself -/

/-- The bean `d` refers to the factory `f` itself, and is had. -/
def markedOperations : List (Operation (Family.lone makerRegistry)) :=
  let member := Registry.lone makerRegistry
  [.register member (.definition "f" { className := some "F" }),
    .register member (.definition "d"
      { className := some "F", properties := [("x", .reference { name := some "&f" })] }),
    .inquire member 2 (.bean "d")]

/-- The bean `d` was made, but it is not told to depend on `f`, nor `f` to be depended on. It was noted
to depend on `&f`, which no bean is named. -/
theorem not_told_of_marked_reference :
    let state := (World.after markedOperations).state 0
    state.singletons.contains "d" = true ∧ state.singletons.contains "f" = true ∧
      state.canonicalName (plainName "&f") = "f" ∧
      state.dependentsOf "f" = [] ∧ state.dependenciesOf "d" = ["&f"] := by
  decide +kernel

end Injector
