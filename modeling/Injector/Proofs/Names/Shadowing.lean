import Injector.Proofs.Creation.Guard

/-!
# Names that are registered twice

Definitions, aliases and singletons share one space of names. A definition takes the place of an alias
of its name, and no alias takes the name of a definition; but aliases and singletons are never compared.
So an alias may hide a singleton of its own name: who asks by that name is led away from it.

As long as that does not happen, every name that has a definition or a singleton stands for itself and
is served from them (`Registry.Serves`). It happens exactly by taking an alias under the name of a
singleton, or a singleton under the name of an alias (`serves_iff_not_shadows`). Nothing that is asked
does it, since the only singletons made then are those of definitions.
-/

namespace Injector

variable {family : Family}

/-! ## Names that stand for themselves -/

/-- A definition or a singleton is registered under the name. -/
def State.Registered (state : State) (name : String) : Prop :=
  state.singletons.contains name = true ∨ state.definitions.contains name = true

/-- No alias hides what is registered under a name that can be asked for. -/
def State.Unshadowed (state : State) : Prop :=
  ∀ name, asksForFactory name = false → state.Registered name → state.aliases.contains name = false

/-- What a container does for a name of its own: it exposes the singleton of the name, or else an
instance by the definition of the name. -/
def ownBean (handler : Handler) (depth : Nat) (registry : Registry) (ancestors : Chain)
    (name : String) : Work Value := do
  let state ← Work.state registry
  match state.singletons.find? name with
  | some shared =>
    exposed registry shared name name (!(state.definitions.find? name).any (·.synthetic))
  | none =>
    let merged ← mergedDefinition (registry :: ancestors) name
    realizePrerequisites handler registry ancestors name merged
    let instance_ ← instanceOf handler depth registry ancestors name merged
    exposed registry instance_ name name (!merged.synthetic)

/-- What is registered under a name is found under the name and served. -/
structure Registry.Serves (registry : Registry) (ancestors : Chain) (world : World) (name : String) :
    Prop where
  not_alias : (world.state registry.index).aliases.contains name = false
  stands : (world.state registry.index).canonicalName name = name
  served : ∀ handler depth, fetchBean handler depth registry ancestors name world =
    ownBean handler depth registry ancestors name world

/-- A registered name that stands for itself is served from what is registered. -/
theorem fetchBean_eq_ownBean {registry : Registry} {world : World} {name : String}
    (hplain : asksForFactory name = false)
    (hstands : (world.state registry.index).canonicalName name = name)
    (hregistered : (world.state registry.index).Registered name) (handler : Handler) (depth : Nat)
    (ancestors : Chain) :
    fetchBean handler depth registry ancestors name world =
      ownBean handler depth registry ancestors name world := by
  unfold fetchBean ownBean
  rw [Work.state_bind_apply, Work.state_bind_apply, plainName_of_plain hplain, hstands]
  cases hfound : (world.state registry.index).singletons.find? name with
  | some shared =>
    show exposed registry shared name name
        (!((world.state registry.index).definition? name).any (·.synthetic)) world = _
    rw [State.definition?, hstands]
  | none =>
    have hdefined : (world.state registry.index).definitions.contains name = true :=
      hregistered.resolve_left fun hcontains => by
        rw [(Table.find?_eq_none_iff _ _).mp hfound] at hcontains
        cases hcontains
    simp only [hdefined, if_true]

theorem State.Unshadowed.serves {world : World} {registry : Registry}
    (h : (world.state registry.index).Unshadowed) {name : String}
    (hplain : asksForFactory name = false)
    (hregistered : (world.state registry.index).Registered name) (ancestors : Chain) :
    registry.Serves ancestors world name where
  not_alias := h name hplain hregistered
  stands := State.canonicalName_of_end ((Table.find?_eq_none_iff _ _).mpr (h name hplain hregistered))
  served handler depth := fetchBean_eq_ownBean hplain
    (State.canonicalName_of_end ((Table.find?_eq_none_iff _ _).mpr (h name hplain hregistered)))
    hregistered handler depth ancestors

/-! ## What a registration takes -/

/-- The names that a registration takes as aliases. -/
def Registration.shorthands : Registration → List String
  | .holder _ shorthands _ => shorthands
  | .shorthand _ taken => [taken]
  | _ => []

/-- The names that a registration takes singletons for. -/
def Registration.singletons : Registration → List String
  | .singleton name _ => [name]
  | _ => []

/-- What aliases and singletons there are were there before, or are among these. -/
structure State.AddsOnly (shorthands singletons : List String) (state after : State) : Prop where
  aliases : ∀ name, after.aliases.contains name = true →
    state.aliases.contains name = true ∨ name ∈ shorthands
  singletons : ∀ name, after.singletons.contains name = true →
    state.singletons.contains name = true ∨ name ∈ singletons

namespace State.AddsOnly

variable {shorthands singletons : List String}

theorem refl (state : State) : state.AddsOnly shorthands singletons state :=
  ⟨fun _ => .inl, fun _ => .inl⟩

theorem trans (first second third : State) (h : first.AddsOnly shorthands singletons second)
    (h' : second.AddsOnly shorthands singletons third) :
    first.AddsOnly shorthands singletons third where
  aliases name hname := (h'.aliases name hname).elim (h.aliases name) .inr
  singletons name hname := (h'.singletons name hname).elim (h.singletons name) .inr

theorem of_define {settings : Settings} {name : String} {definition : Definition}
    {state after : State} (hok : State.define settings name definition state = .ok after) :
    state.AddsOnly shorthands singletons after := by
  obtain ⟨-, -, rfl⟩ := State.define_eq_ok_iff.mp hok
  exact ⟨fun other hother => .inl ((Table.contains_erase_iff _ _ _).mp hother).2,
    fun other hother => .inl ((Table.contains_erase_iff _ _ _).mp hother).2⟩

theorem of_addAlias {settings : Settings} {name shorthand : String} {state after : State}
    (hmem : shorthand ∈ shorthands)
    (hok : State.addAlias settings name shorthand state = .ok after) :
    state.AddsOnly shorthands singletons after := by
  rcases State.addAlias_eq_ok hok with ⟨-, rfl⟩ | ⟨-, rfl⟩ | ⟨-, -, -, -, rfl⟩
  · exact ⟨fun other hother => .inl ((Table.contains_erase_iff _ _ _).mp hother).2, fun _ => .inl⟩
  · exact refl _
  · refine ⟨fun other hother => ?_, fun _ => .inl⟩
    rcases (Table.contains_insert_iff _ _ _ _).mp hother with rfl | hold
    · exact .inr hmem
    · exact .inl hold

end State.AddsOnly

theorem Registry.take_addsOnly (registry : Registry) (registration : Registration) :
    (registry.take registration).Keeps
      (Statewise (State.AddsOnly registration.shorthands registration.singletons)) := by
  have hrefl : ∀ state : State,
      state.AddsOnly registration.shorthands registration.singletons state := State.AddsOnly.refl
  have hworld := Statewise.refl hrefl
  have hK := Work.compositional_keeps hworld (Statewise.trans State.AddsOnly.trans)
  cases registration with
  | definition name definition =>
    exact Work.keeps_register hworld fun _ after hok =>
      Statewise.withState hrefl (.of_define hok)
  | holder name shorthands definition =>
    refine hK.bind (Work.keeps_register hworld fun _ after hok =>
      Statewise.withState hrefl (.of_define hok)) fun _ => hK.forM fun shorthand hmem => ?_
    exact Work.keeps_register hworld fun _ after hok =>
      Statewise.withState hrefl (.of_addAlias hmem hok)
  | removal name =>
    refine Work.keeps_register hworld fun _ after hok => Statewise.withState hrefl ?_
    obtain ⟨-, rfl⟩ := State.remove_eq_ok_iff.mp hok
    exact ⟨fun _ => .inl, fun other hother => .inl ((Table.contains_erase_iff _ _ _).mp hother).2⟩
  | shorthand name shorthand =>
    exact Work.keeps_register hworld fun _ after hok =>
      Statewise.withState hrefl (.of_addAlias List.mem_cons_self hok)
  | singleton name value =>
    refine Work.keeps_register hworld fun _ after hok => Statewise.withState hrefl ?_
    obtain ⟨-, rfl⟩ := State.addSingleton_eq_ok_iff.mp hok
    refine ⟨fun _ => .inl, fun other hother => ?_⟩
    rcases (Table.contains_insert_iff _ _ _ _).mp hother with rfl | hold
    · exact .inr List.mem_cons_self
    · exact .inl hold

/-- Taking a singleton changes neither definitions nor aliases. -/
theorem Registry.addSingleton_sameSources (registry : Registry) (name : String) (value : Value) :
    (registry.addSingleton name value).Keeps (Statewise State.SameSources) := by
  have hrefl : ∀ state : State, state.SameSources state := fun _ => ⟨rfl, rfl⟩
  refine Work.keeps_register (Statewise.refl hrefl) fun world after hok => ?_
  obtain ⟨-, rfl⟩ := State.addSingleton_eq_ok_iff.mp hok
  exact Statewise.withState hrefl ⟨rfl, rfl⟩

/-- What is registered stays registered, by a definition if it was defined. -/
structure State.KeepsRegistered (state after : State) : Prop where
  defined : ∀ name, state.definitions.contains name = true → after.definitions.contains name = true
  registered : ∀ name, state.Registered name → after.Registered name

/-- Taking aliases, alone or for a definition, takes nothing out. -/
theorem Registry.take_keepsRegistered (registry : Registry) {registration : Registration}
    {name : String} (h : name ∈ registration.shorthands) :
    (registry.take registration).Keeps (Statewise State.KeepsRegistered) := by
  have hrefl : ∀ state : State, state.KeepsRegistered state := fun _ => ⟨fun _ => id, fun _ => id⟩
  have htrans : ∀ first second third : State, first.KeepsRegistered second →
      second.KeepsRegistered third → first.KeepsRegistered third := fun _ _ _ hab hbc =>
    ⟨fun name hname => hbc.1 name (hab.1 name hname), fun name hname => hbc.2 name (hab.2 name hname)⟩
  have hworld := Statewise.refl hrefl
  have haddAlias : ∀ name shorthand, (registry.addAlias name shorthand).Keeps
      (Statewise State.KeepsRegistered) := fun name shorthand =>
    Work.keeps_register hworld fun _ after hok => Statewise.withState hrefl <| by
      rcases State.addAlias_eq_ok hok with ⟨-, rfl⟩ | ⟨-, rfl⟩ | ⟨-, -, -, -, rfl⟩ <;>
        exact ⟨fun _ => id, fun _ => id⟩
  have hK := Work.compositional_keeps hworld (Statewise.trans htrans)
  cases registration with
  | definition name definition => cases h
  | removal name => cases h
  | singleton name value => cases h
  | shorthand name shorthand => exact haddAlias name shorthand
  | holder name shorthands definition =>
    refine hK.bind (Work.keeps_register hworld fun _ after hok => Statewise.withState hrefl ?_)
      fun _ => hK.forM fun shorthand _ => haddAlias name shorthand
    obtain ⟨-, -, rfl⟩ := State.define_eq_ok_iff.mp hok
    refine ⟨fun other hother => (Table.contains_insert_iff _ _ _ _).mpr (.inr hother), ?_⟩
    intro other hother
    by_cases he : other = name
    · exact .inr ((Table.contains_insert_iff _ _ _ _).mpr (.inl he))
    · exact hother.imp (fun hkept => (Table.contains_erase_iff _ _ _).mpr ⟨he, hkept⟩)
        fun hdefined => (Table.contains_insert_iff _ _ _ _).mpr (.inr hdefined)

/-! ## Runs -/

/-- No container of the family has an alias that hides what is registered under its name. -/
def World.Unshadowed (family : Family) (world : World) : Prop :=
  ∀ member : family.Member, (world.state member.registry.index).Unshadowed

/-- The operation takes an alias under the name of a singleton, or a singleton under the name of an
alias, and the name can be asked for. -/
def Operation.Shadows (world : World) : Operation family → Prop
  | .register member registration => ∃ name, asksForFactory name = false ∧
      ((world.state member.registry.index).singletons.contains name = true ∧
          name ∈ registration.shorthands ∧
          (((Operation.register member registration).next world).state
            member.registry.index).aliases.contains name = true ∨
        (world.state member.registry.index).aliases.contains name = true ∧
          name ∈ registration.singletons ∧
          (((Operation.register member registration).next world).state
            member.registry.index).singletons.contains name = true)
  | .inquire _ _ _ => False

/-- Where nothing is hidden, what is registered and an alias is a singleton that is not defined. -/
theorem World.AliasesUndefined.registered {world : World} (h : world.AliasesUndefined) {index : Nat}
    {name : String} (halias : (world.state index).aliases.contains name = true)
    (hregistered : (world.state index).Registered name) :
    (world.state index).singletons.contains name = true :=
  hregistered.resolve_right fun hdefined => by
    rw [h index name halias] at hdefined
    cases hdefined

/-- Asking hides nothing: the singletons that it brings about are those of definitions. -/
theorem Inquiry.unshadowed {world : World} (hundefined : world.AliasesUndefined)
    (h : world.Unshadowed family) (member : family.Member) (depth : Nat) (inquiry : Inquiry) :
    ((Operation.inquire member depth inquiry).next world).Unshadowed family := by
  have hadvances : world.Advances family ((Operation.inquire member depth inquiry).next world) :=
    inquiry.advancing member depth world hundefined
  obtain ⟨new, -, hfates⟩ := hadvances.fates
  intro other name hplain hregistered
  obtain ⟨hdefinitions, haliases⟩ := (hadvances.framed other.registry.index).sources
  rw [haliases]
  refine h other name hplain ?_
  rcases hregistered with hsingleton | hdefined
  · cases hfates other.registry.index name with
    | unchanged hsame => exact .inl (by rwa [Table.contains, ← hsame])
    | made _ _ _ _ _ hshares => exact .inr (by rw [← hdefinitions]; exact hshares.defined)
  · exact .inr (by rwa [← hdefinitions])

/-- One operation hides nothing exactly if it takes no alias under the name of a singleton and no
singleton under that of an alias. -/
theorem Operation.unshadowed_next_iff {world : World} (hreachable : Reachable family world)
    (h : world.Unshadowed family) (operation : Operation family) :
    (operation.next world).Unshadowed family ↔ ¬ operation.Shadows world := by
  have hundefined := (hreachable.next operation).aliasesUndefined
  cases operation with
  | inquire member depth inquiry =>
    exact iff_of_true (inquiry.unshadowed hreachable.aliasesUndefined h member depth) id
  | register member registration =>
    have hadds : Statewise (State.AddsOnly registration.shorthands registration.singletons) world
        ((Operation.register member registration).next world) :=
      member.registry.take_addsOnly registration world
    constructor
    · rintro hnext ⟨name, hplain, ⟨hsingleton, hmem, halias⟩ | ⟨halias, hmem, hsingleton⟩⟩
      · have hkeeps := member.registry.take_keepsRegistered hmem world
        rw [hnext _ name hplain ((hkeeps member.registry.index).registered name (.inl hsingleton))]
          at halias
        cases halias
      · -- taking a singleton drops no alias
        have haliases : (((Operation.register member registration).next world).state
            member.registry.index).aliases = (world.state member.registry.index).aliases := by
          cases registration with
          | singleton taken value =>
            exact (member.registry.addSingleton_sameSources taken value world _).2
          | definition | holder | removal | shorthand => cases hmem
        rw [← haliases, hnext member name hplain (.inl hsingleton)] at halias
        cases halias
    · intro hshadows other name hplain hregistered
      rw [Bool.eq_false_iff]
      intro halias
      have hsingleton := hundefined.registered halias hregistered
      have hindex : other.registry.index = member.registry.index := by
        by_contra hne
        have hsame : ((Operation.register member registration).next world).state
            other.registry.index = world.state other.registry.index :=
          member.registry.take_elsewhere hne registration world
        rw [hsame] at halias hregistered
        rw [h other name hplain hregistered] at halias
        cases halias
      rw [hindex] at halias hsingleton
      rcases (hadds member.registry.index).singletons name hsingleton with hold | hnew
      · rcases (hadds member.registry.index).aliases name halias with halias' | hmem
        · rw [h member name hplain (.inl hold)] at halias'
          cases halias'
        · exact hshadows ⟨name, hplain, .inl ⟨hold, hmem, halias⟩⟩
      · refine hshadows ⟨name, hplain, .inr ⟨?_, hnew, hsingleton⟩⟩
        refine ((hadds member.registry.index).aliases name halias).resolve_right fun hmem => ?_
        cases registration with
        | singleton => cases hmem
        | definition | holder | removal | shorthand => cases hnew

/-- **All along a run, everything that is registered under a name that can be asked for stands for
itself and is served, exactly if no operation of the run takes an alias under the name of a singleton or
a singleton under the name of an alias.** -/
theorem serves_iff_not_shadows (operations : List (Operation family)) :
    (∀ done, done <+: operations → ∀ (member : family.Member) (name : String),
      asksForFactory name = false →
      ((World.after done).state member.registry.index).Registered name →
      member.registry.Serves member.ancestors (World.after done) name) ↔
      ∀ done operation, done ++ [operation] <+: operations →
        ¬ operation.Shadows (World.after done) := by
  rw [← forall_prefix_iff (P := World.Unshadowed family)
    (fun member name _ hregistered => by rcases hregistered with h | h <;> cases h)
    (fun _ operation hreachable h => operation.unshadowed_next_iff hreachable h) operations]
  refine forall_congr' fun done => imp_congr_right fun _ => ?_
  exact ⟨fun h member name hplain hregistered => (h member name hplain hregistered).not_alias,
    fun h member name hplain hregistered =>
      (h member).serves hplain hregistered member.ancestors⟩

/-! ### An alias over a singleton -/

/-- The singletons `a` and `b`, and then `a` as an alias for `b`. -/
def shadowingOperations : List (Operation (Family.lone { index := 0 })) :=
  let member := Registry.lone { index := 0 }
  [.register member (.singleton "a" (.int 1)), .register member (.singleton "b" (.int 2)),
    .register member (.shorthand "b" "a")]

/-- The singleton `a` is there, and who asks for it is given `b`. -/
theorem not_serves_after_shadowing :
    ((World.after shadowingOperations).state 0).Registered "a" ∧
      ¬ Registry.Serves { index := 0 } [] (World.after shadowingOperations) "a" :=
  ⟨.inl (by decide), fun h => absurd h.not_alias (by decide)⟩

end Injector
