import Injector.Proofs.Creation.InitializationOrder
import Injector.Proofs.Creation.Stability

/-!
# Beans of definitions that are replaced

When a definition is taken in place of an earlier one, the container drops every merged definition, since
any of them may have been completed by the earlier one. Of the singletons it drops that of the very name
(`Registry.singleton_of_define`). So which bean is had next is settled by what was kept
(`Chain.bean_renewed_iff`): the bean of the name, and every bean of which no singleton was kept, is made
anew, by what its definition is merged to now. Every other singleton stays as it was made, even if its
definition has the replaced one as its parent (`not_renewed_child`).
-/

namespace Injector

variable {family : Family}

/-! ## What a new definition drops -/

/-- **Taking a definition drops the singleton of its name and no other one.** -/
theorem Registry.singleton_of_define {registry : Registry} {name : String} {definition : Definition}
    {start world : World} (h : registry.define name definition start = (.ok (), world)) (other : String) :
    (world.state registry.index).singletons.find? other =
      if other = name then none else (start.state registry.index).singletons.find? other := by
  unfold define at h
  rw [Work.register_apply] at h
  cases hstate : State.define registry.settings name definition (start.state registry.index) with
  | error failure =>
    rw [hstate] at h
    cases h
  | ok state =>
    rw [hstate] at h
    obtain ⟨-, -, rfl⟩ := State.define_eq_ok_iff.mp hstate
    cases h
    rw [World.state_withState, if_pos rfl]
    exact Table.find?_erase _ _ _

/-! ## What is had next -/

/-- The value is what those are given who ask for an instance by a name as written. -/
def Registry.Exposes (registry : Registry) (instance_ : Value) (written name : String) (value : Value) :
    Prop :=
  ∃ processed before after, exposed registry instance_ written name processed before = (.ok value, after)

/-- A bean that is created for its name is created by what the definition of the name is merged to. -/
theorem Creation.Planned.merged {creation : Creation family} {start : World}
    (h : creation.Planned start) {member : family.Member} {name : String}
    (howner : creation.owner = .merged member.registry.index name) :
    World.bareOf (start.mergedIn member.chain name) = some creation.definition.bare := by
  cases h with
  | @bean other _ definition _ hmerged =>
    obtain ⟨hindex, rfl⟩ := Owner.merged.inj howner
    obtain ⟨hregistry, hancestors⟩ := family.index_unique other.has member.has hindex
    unfold Family.Member.chain at hmerged ⊢
    rw [← hregistry, ← hancestors]
    exact hmerged
  | nested => cases howner

/-- It is created in the container of that name. -/
theorem Creation.Planned.index {creation : Creation family} {start : World}
    (h : creation.Planned start) {index : Nat} {name : String}
    (howner : creation.owner = .merged index name) : creation.member.registry.index = index := by
  cases h with
  | bean => exact (Owner.merged.inj howner).1
  | nested => cases howner

/-- What was written to a journal behind all that it held before is new. -/
theorem mem_new_of_suffix {journal new old earlier : List Event} {event : Event}
    (hjournal : journal = new ++ old) (hevent : event :: earlier <:+ journal) (hold : old <:+ earlier) :
    event ∈ new := by
  obtain ⟨later, rfl⟩ := hevent
  obtain ⟨between, rfl⟩ := hold
  rw [← List.cons_append, ← List.append_assoc] at hjournal
  rw [← List.append_cancel_right hjournal]
  exact List.mem_append_right _ List.mem_cons_self

section

variable {world after : World} {written name : String} {value : Value} {depth : Nat}

/-- What is had of a bean of which an instance is kept is exposed of that instance. -/
theorem Chain.bean_of_kept {member : family.Member} {shared : Value}
    (hsought : world.sought member.registry written = name)
    (hkept : (world.state member.registry.index).singletons.find? name = some shared)
    (h : Chain.bean depth member.chain written world = (.ok value, after)) :
    ∃ processed exposing, exposed member.registry shared written name processed world =
        (.ok value, exposing) ∧
      after = exposing.noting (.served member.registry.index written value) := by
  obtain ⟨lower, exposing, -, hfetch, rfl⟩ := bean_eq_ok h
  obtain ⟨processed, heq⟩ := fetchBean_of_kept (serve lower) lower member.ancestors hsought hkept
  exact ⟨processed, exposing, heq ▸ hfetch, rfl⟩

/-- **A bean of which no instance is kept is made anew.** What is had is exposed of what was made, and no
other instance is kept of it then. -/
theorem Chain.bean_of_none {member : family.Member} (hundefined : world.AliasesUndefined)
    (hsought : world.sought member.registry written = name)
    (hnone : (world.state member.registry.index).singletons.find? name = none)
    (hdefined : (world.state member.registry.index).definitions.contains name = true)
    (h : Chain.bean depth member.chain written world = (.ok value, after)) {new : List Event}
    (hjournal : after.journal = new ++ world.journal) :
    ∃ instance_ processed between exposing,
      exposed member.registry instance_ written name processed between = (.ok value, exposing) ∧
      after = exposing.noting (.served member.registry.index written value) ∧
      (∀ kept, (between.state member.registry.index).singletons.find? name = some kept →
        kept = instance_) ∧
      ∃ construction ∈ attempts member.registry.index name new, construction.made = some instance_ := by
  have hadvances : world.Advances family after :=
    Work.Keeps.run ((serve_advancing family depth).1 _ written member.chain_has) h hundefined
  have hkeeping : World.Keeping family world after :=
    Work.Keeps.run (((World.container_keeping family world).serve_within depth).1 _ written
      member.chain_has) h (.refl family world)
  obtain ⟨new', hnew, hfates⟩ := hadvances.fates
  obtain rfl := List.append_cancel_right (hjournal.symm.trans hnew)
  obtain ⟨lower, exposing, -, hfetch, rfl⟩ := bean_eq_ok h
  obtain ⟨merged, first, second, instance_, between, hmerged, hrequired, hinstance, hexposed⟩ :=
    fetchBean_eq_ok hsought hnone hdefined hfetch
  have hK := World.container_grows family
  have hend : between.Grows exposing := (hK.exposed member.has instance_ written _ _).run hexposed
  have hlater : ∀ kept, (between.state member.registry.index).singletons.find? name = some kept →
      ((exposing.noting (.served member.registry.index written value)).state
        member.registry.index).singletons.find? name = some kept :=
    fun kept hkept => Table.find?_of_prefix (hend.1 _).singletons hkept
  refine ⟨instance_, _, between, exposing, hexposed, rfl, ?_⟩
  -- what is kept in between is kept to the end, where the fate of the name says how it came about
  unfold instanceOf at hinstance
  split at hinstance
  · -- the instance is kept, and its constructor made it
    have hkept := singletonOr_eq_ok hinstance
    refine ⟨fun kept hkept' => Option.some.inj (hkept'.symm.trans hkept), ?_⟩
    cases hfates member.registry.index name with
    | unchanged hsame =>
      have hnothing := (hlater instance_ hkept).symm.trans (hsame.trans hnone)
      cases hnothing
    | made value' _ _ hkept' _ hshares =>
      cases (hlater instance_ hkept).symm.trans hkept'
      obtain ⟨_, -, -, construction, hmem, -, -, -, hmade⟩ := hshares.made
      exact ⟨construction, hmem, hmade⟩
  · next hscope =>
    refine ⟨fun kept hkept => ?_, ?_⟩
    · -- every request gets a new instance, and none is kept
      cases hfates member.registry.index name with
      | unchanged hsame => cases (hlater kept hkept).symm.trans (hsame.trans hnone)
      | made _ _ _ _ _ hshares =>
        obtain ⟨definition, hdefinition, hsingleton, -⟩ := hshares.made
        obtain ⟨found, hfound, rfl, -⟩ := Work.takeMerged_eq_ok hmerged
        have hbare := hkeeping.toRestsOn.bareOf_of_kept (hundefined.canonicalName hdefined) hdefinition
        unfold Family.Member.chain at hbare
        rw [hfound] at hbare
        rw [scope_eq_of_bare (Option.some.inj hbare)] at hscope
        exact absurd hsingleton hscope
    · -- the call for it came after the definition was merged and what it requires was had
      obtain ⟨construction, earlier, hcalled, hbefore, howner, hmade⟩ := guarded_eq_ok member hinstance
      have hfirst := (hK.merged member.has name).run hmerged
      have hsecond := (hK.realizePrerequisites (hK.serve_within lower).1 member.has name
        merged).run hrequired
      have hcall : .constructed construction :: earlier <:+
          (exposing.noting (.served member.registry.index written value)).journal :=
        hcalled ▸ hend.2.trans (List.suffix_cons _ _)
      have hnew : .constructed construction ∈ new :=
        mem_new_of_suffix hjournal hcall ((hfirst.trans hsecond).2.trans hbefore)
      exact ⟨construction, mem_attempts hnew howner, hmade⟩

/-- Each call of a constructor for the bean of a name is accounted for. -/
theorem Chain.bean_accounts {member : family.Member} {result : Except Stop Value}
    (h : Chain.bean depth member.chain written world = (result, after)) {new : List Event}
    (hjournal : after.journal = new ++ world.journal) {construction : Construction}
    (hmem : construction ∈ attempts member.registry.index name new) :
    ∃ (creation : Creation family) (earlier : List Event), creation.Planned world ∧
      creation.owner = .merged member.registry.index name ∧
      creation.Initialized world after construction earlier := by
  obtain ⟨event, hevent, hconstruction⟩ := List.mem_filterMap.mp hmem
  obtain ⟨rfl, howner⟩ := Event.construction?_eq_some hconstruction
  obtain ⟨later, between, rfl⟩ := List.append_of_mem hevent
  have hsuffix : .constructed construction :: (between ++ world.journal) <:+ after.journal :=
    ⟨later, by rw [hjournal, List.append_assoc, List.cons_append]⟩
  have haccounted : Accounted family world after :=
    Work.Keeps.run ((accounting family world depth).bean _ written member.chain_has) h (.refl family world)
  rcases haccounted.calls construction _ hsuffix with hbefore | ⟨creation, hplanned, hinitialized⟩
  · have hlength := hbefore.length_le
    rw [List.length_cons, List.length_append] at hlength
    omega
  · exact ⟨creation, _, hplanned, hinitialized.owner.symm.trans howner, hinitialized⟩

/-- **What is had of a bean after a definition was taken was made by what its definition is merged to
now, exactly if it is the bean of that very name or no instance of it had been kept.** Otherwise it is the
instance that had been kept. -/
theorem Chain.bean_renewed_iff {start : World} (h : Reachable family start) (member : family.Member)
    {other : String} {definition : Definition}
    (hdefine : member.registry.define other definition start = (.ok (), world))
    (hsought : world.sought member.registry written = name)
    (hdefined : (world.state member.registry.index).definitions.contains name = true)
    (hhad : Chain.bean depth member.chain written world = (.ok value, after)) :
    ∃ new instance_, after.journal = new ++ start.journal ∧
      member.registry.Exposes instance_ written name value ∧
      ((∃ construction ∈ attempts member.registry.index name new, construction.made = some instance_ ∧
          ∃ (creation : Creation family) (earlier : List Event),
            World.bareOf (world.mergedIn member.chain name) = some creation.definition.bare ∧
            creation.Initialized world after construction earlier) ↔
        name = other ∨ (start.state member.registry.index).singletons.find? name = none) ∧
      (name ≠ other → ∀ kept,
        (start.state member.registry.index).singletons.find? name = some kept → instance_ = kept) := by
  have hundefined : world.AliasesUndefined := by
    have hnext : (Operation.register member (.definition other definition)).next start = world :=
      congrArg Prod.snd hdefine
    exact hnext ▸ (h.next _).aliasesUndefined
  have hstart : world.journal = start.journal :=
    Work.Keeps.run (member.registry.take_journal (.definition other definition)) hdefine
  have hadvances : world.Advances family after :=
    Work.Keeps.run ((serve_advancing family depth).1 _ written member.chain_has) hhad hundefined
  obtain ⟨new, hjournal, hfates⟩ := hadvances.fates
  have hsingleton := Registry.singleton_of_define hdefine name
  cases hkept : (world.state member.registry.index).singletons.find? name with
  | some shared =>
    -- a bean that is kept is not made again, and the definition taken was that of another name
    have hidle : attempts member.registry.index name new = [] := by
      cases hfates member.registry.index name with
      | unchanged _ hidle => exact hidle (.inl (Table.contains_of_find? hkept))
      | made _ hnone =>
        rw [hkept] at hnone
        cases hnone
    rw [hkept] at hsingleton
    split at hsingleton
    · cases hsingleton
    · next hother =>
      obtain ⟨processed, exposing, hexposed, -⟩ := Chain.bean_of_kept hsought hkept hhad
      refine ⟨new, shared, hstart ▸ hjournal, ⟨processed, world, exposing, hexposed⟩, ?_, ?_⟩
      · rw [hidle, ← hsingleton]
        refine iff_of_false (fun ⟨_, hmem, _⟩ => List.not_mem_nil hmem) ?_
        exact not_or_intro hother (Option.some_ne_none _)
      · intro _ kept hbefore
        exact Option.some.inj (hsingleton.trans hbefore)
  | none =>
    -- nothing was kept before either, unless it was dropped with the definition of this very name
    obtain ⟨instance_, processed, between, exposing, hexposed, -, -, construction, hmem, hmade⟩ :=
      Chain.bean_of_none hundefined hsought hkept hdefined hhad hjournal
    obtain ⟨creation, earlier, hplanned, howner, hinitialized⟩ := Chain.bean_accounts hhad hjournal hmem
    refine ⟨new, instance_, hstart ▸ hjournal, ⟨processed, between, exposing, hexposed⟩, ?_, ?_⟩
    · refine iff_of_true ⟨construction, hmem, hmade, creation, earlier, hplanned.merged howner,
        hinitialized⟩ ?_
      rw [hkept] at hsingleton
      split at hsingleton
      · next hsame => exact .inl hsame
      · exact .inr hsingleton.symm
    · intro hother kept hbefore
      rw [hkept, if_neg hother, hbefore] at hsingleton
      cases hsingleton

end

/-! ### A bean whose definition has the replaced one as its parent -/

/-- Two classes of plain beans. -/
def twoClassRegistry : Registry where
  index := 0
  classes := ClassTable.register (ClassTable.register {} "A" { construct := Plan.constructor (.plain "A") [] })
    "B" { construct := Plan.constructor (.plain "B") [] }

/-- The bean `n` gets its class from `b`, and both are had. -/
def renewalOperations : List (Operation (Family.lone twoClassRegistry)) :=
  let member := Registry.lone twoClassRegistry
  [.register member (.definition "b" { className := some "A" }),
    .register member (.definition "n" { parent := some "b" }),
    .inquire member 1 (.bean "n"),
    .inquire member 1 (.bean "b")]

/-- The world after `b` was defined anew, with another class. -/
def renewedWorld : World :=
  (twoClassRegistry.define "b" { className := some "B" } (World.after renewalOperations)).2

/-- The bean `b` is made anew by its new definition. -/
theorem bean_renewed_itself :
    ∃ value after, Chain.bean 1 (Registry.lone twoClassRegistry).chain "b" renewedWorld = (.ok value, after) ∧
      ∃ new instance_, after.journal = new ++ (World.after renewalOperations).journal ∧
        twoClassRegistry.Exposes instance_ "b" "b" value ∧
        ∃ construction ∈ attempts 0 "b" new, construction.made = some instance_ ∧
          ∃ (creation : Creation (Family.lone twoClassRegistry)) (earlier : List Event),
            World.bareOf (renewedWorld.mergedIn (Registry.lone twoClassRegistry).chain "b") =
              some creation.definition.bare ∧
            creation.Initialized renewedWorld after construction earlier := by
  have hok : (Chain.bean 1 (Registry.lone twoClassRegistry).chain "b" renewedWorld).1.isOk = true := by
    decide +kernel
  have hdefine : (twoClassRegistry.define "b" { className := some "B" }
      (World.after renewalOperations)).1.isOk = true := by decide +kernel
  rcases hdefined : twoClassRegistry.define "b" { className := some "B" }
    (World.after renewalOperations) with ⟨stop | ⟨⟩, world⟩ <;> rw [hdefined] at hdefine
  · cases hdefine
  have hworld : renewedWorld = world := congrArg Prod.snd hdefined
  rcases hrun : Chain.bean 1 (Registry.lone twoClassRegistry).chain "b" renewedWorld with
    ⟨stop | value, after⟩ <;> rw [hrun] at hok
  · cases hok
  obtain ⟨new, instance_, hjournal, hexposes, hiff, -⟩ := Chain.bean_renewed_iff
    (⟨renewalOperations, rfl⟩ : Reachable (Family.lone twoClassRegistry) _) (Registry.lone twoClassRegistry)
    (hworld ▸ hdefined) (by decide +kernel : renewedWorld.sought twoClassRegistry "b" = "b")
    (by decide +kernel) hrun
  exact ⟨value, after, rfl, new, instance_, hjournal, hexposes, hiff.mpr (.inl rfl)⟩

/-- The bean `n` would be one of the class `B` by now, but what is had is the one of the class `A`. -/
theorem not_renewed_child :
    (renewedWorld.mergedIn [twoClassRegistry] "n").toOption.bind (fun merged => merged.definition.className) =
        some "B" ∧
      (Chain.bean 1 [twoClassRegistry] "n" renewedWorld).1.toOption.map (fun value => value.kind) =
        some "A" := by
  decide +kernel

end Injector
