import Injector.Proofs.Requests.Runs

/-!
# Registrations that are refused

Taking or taking out a definition, taking an alias, taking a singleton: each of these makes all of its
checks before it changes anything, so that a refusal leaves the world as it is
(`Work.register_of_error`).

A definition with aliases is taken in several steps, and what was taken before an alias is refused
stays. It leaves no trace only if there was nothing to leave: the definition and the aliases before the
refused one were there already, and nothing that a definition makes the container forget was kept
(`State.Repeats`). So a registration that is refused leaves no trace exactly if it does not break off
half-way with something taken (`Registry.leavesNoTrace_iff`).
-/

namespace Injector

/-! ## Refusals of a single step -/

/-- **A registration in one step that is refused changes nothing.** -/
theorem Work.register_of_error {registry : Registry} {change : State → Except Failure State}
    {world after : World} {stop : Stop}
    (h : Work.register registry change world = (.error stop, after)) :
    after = world ∧ ∃ failure, change (world.state registry.index) = .error failure := by
  rw [Work.register_apply] at h
  cases hchange : change (world.state registry.index) with
  | ok state =>
    rw [hchange] at h
    cases h
  | error failure =>
    rw [hchange] at h
    cases h
    exact ⟨rfl, failure, rfl⟩

theorem Work.register_of_ok {registry : Registry} {change : State → Except Failure State}
    {world after : World} (h : Work.register registry change world = (.ok (), after)) :
    ∃ state, change (world.state registry.index) = .ok state ∧
      after = world.withState registry.index state := by
  rw [Work.register_apply] at h
  cases hchange : change (world.state registry.index) with
  | ok state =>
    rw [hchange] at h
    cases h
    exact ⟨state, rfl, rfl⟩
  | error failure =>
    rw [hchange] at h
    cases h

/-! ## What there is to take -/

namespace State

/-- The definition and the aliases are there already, and nothing is kept that taking the definition
would drop. -/
structure Repeats (state : State) (name : String) (shorthands : List String)
    (definition : Definition) : Prop where
  defined : state.definitions.find? name = some definition
  not_alias : state.aliases.find? name = none
  bound : ∀ shorthand ∈ shorthands, shorthand = name ∨ state.aliases.find? shorthand = some name
  not_merged : state.merged = .empty
  not_made : state.singletons.find? name = none
  not_produced : state.products.find? name = none

variable {state after : State} {name : String} {definition : Definition}

/-- The state after a definition is taken. -/
def defining (state : State) (name : String) (definition : Definition) : State :=
  State.forget
    { state with
      definitions := state.definitions.insert name definition
      aliases := state.aliases.erase name } name

/-- A definition that is there already changes nothing. -/
theorem Repeats.defining_eq {shorthands : List String}
    (h : state.Repeats name shorthands definition) : state.defining name definition = state := by
  unfold defining forget
  dsimp only
  rw [Table.insert_of_find? h.defined, Table.erase_of_find? h.not_alias,
    Table.erase_of_find? h.not_made, Table.erase_of_find? h.not_produced, ← h.not_merged]

/-- Nor does an alias that is there already, or that is the name itself. -/
theorem Repeats.addAlias_eq {settings : Settings} {shorthands : List String} {shorthand : String}
    (h : state.Repeats name shorthands definition) (hmem : shorthand ∈ shorthands)
    (hok : addAlias settings name shorthand state = .ok after) : after = state := by
  rcases addAlias_eq_ok hok with ⟨rfl, rfl⟩ | ⟨-, rfl⟩ | ⟨hself, -, -, -, rfl⟩
  · rw [Table.erase_of_find? h.not_alias]
  · rfl
  · rcases h.bound shorthand hmem with he | hbound
    · exact absurd he hself
    · rw [Table.insert_of_find? hbound]

/-- The name is no alias, and the shorthands stand for it. -/
def Binds (state : State) (name : String) (shorthands : List String) : Prop :=
  state.aliases.find? name = none ∧
    ∀ shorthand ∈ shorthands, shorthand = name ∨ state.aliases.find? shorthand = some name

/-- One more alias for a name leaves those that stand for it already. -/
theorem Binds.addAlias {settings : Settings} {shorthands : List String} {shorthand : String}
    (h : state.Binds name shorthands)
    (hok : addAlias settings name shorthand state = .ok after) :
    after.Binds name (shorthands ++ [shorthand]) := by
  obtain ⟨hname, hbound⟩ := h
  have hkeeps : after.aliases.find? name = none ∧
      (∀ other, state.aliases.find? other = some name → after.aliases.find? other = some name) ∧
        (shorthand = name ∨ after.aliases.find? shorthand = some name) := by
    rcases addAlias_eq_ok hok with ⟨hself, rfl⟩ | ⟨hfound, rfl⟩ | ⟨hself, -, -, -, rfl⟩
    · dsimp only
      rw [Table.erase_of_find? (hself ▸ hname)]
      exact ⟨hname, fun _ => id, .inl hself⟩
    · exact ⟨hname, fun _ => id, .inr hfound⟩
    · refine ⟨?_, fun other hother => ?_, .inr ?_⟩
      · rw [Table.find?_insert, if_neg (Ne.symm hself), hname]
      · rw [Table.find?_insert, hother, ite_self]
      · rw [Table.find?_insert, if_pos rfl]
  obtain ⟨hname', hkeeps, hnew⟩ := hkeeps
  refine ⟨hname', fun other hmem => ?_⟩
  rcases List.mem_append.mp hmem with hmem | hmem
  · exact (hbound other hmem).imp_right (hkeeps other)
  · rw [List.mem_singleton.mp hmem]
    exact hnew

end State

namespace Registry

variable {registry : Registry} {world after : World} {name : String} {shorthands : List String}
  {definition : Definition}

/-! ## Definitions with aliases -/

/-- Aliases of a name that are taken one after the other all stand for it in the end, and nothing but
aliases has changed. -/
theorem binds_of_forM_addAlias :
    ∀ {shorthands done : List String} {world : World},
      (shorthands.forM fun shorthand => registry.addAlias name shorthand) world = (.ok (), after) →
      (world.state registry.index).Binds name done →
        (after.state registry.index).Binds name (done ++ shorthands) ∧
          after.state registry.index =
            { world.state registry.index with aliases := (after.state registry.index).aliases }
  | [], done, world, h, hbinds => by
    cases h
    exact ⟨by rwa [List.append_nil], rfl⟩
  | shorthand :: rest, done, world, h, hbinds => by
    obtain ⟨⟨⟩, between, hfirst, hrest⟩ := Work.bind_eq_ok h
    obtain ⟨state, hok, rfl⟩ := Work.register_of_ok hfirst
    have hstate : (world.withState registry.index state).state registry.index = state := by
      rw [World.state_withState, if_pos rfl]
    obtain ⟨hafter, hsame⟩ := binds_of_forM_addAlias hrest (hstate.symm ▸ hbinds.addAlias hok)
    rw [List.append_assoc, List.singleton_append] at hafter
    refine ⟨hafter, ?_⟩
    rw [hstate] at hsame
    rcases State.addAlias_eq_ok hok with ⟨-, rfl⟩ | ⟨-, rfl⟩ | ⟨-, -, -, -, rfl⟩
    · exact hsame
    · exact hsame
    · exact hsame

/-- Taking aliases that are there already changes nothing. -/
theorem state_of_forM_addAlias :
    ∀ {part : List String} {world : World}, part ⊆ shorthands →
      (part.forM fun shorthand => registry.addAlias name shorthand) world = (.ok (), after) →
      (world.state registry.index).Repeats name shorthands definition →
        after.state registry.index = world.state registry.index
  | [], world, _, h, _ => by
    cases h
    rfl
  | shorthand :: rest, world, hsub, h, hrepeats => by
    obtain ⟨⟨⟩, between, hfirst, hrest⟩ := Work.bind_eq_ok h
    obtain ⟨state, hok, rfl⟩ := Work.register_of_ok hfirst
    have hstate : (world.withState registry.index state).state registry.index =
        world.state registry.index := by
      rw [World.state_withState, if_pos rfl, hrepeats.addAlias_eq (hsub List.mem_cons_self) hok]
    have hrest' := state_of_forM_addAlias (fun _ hmem => hsub (List.mem_cons_of_mem _ hmem)) hrest
      (hstate.symm ▸ hrepeats)
    rw [hrest', hstate]

/-- Of all containers, taking a definition with aliases changes at most the one that takes it. -/
theorem state_of_defineWithAliases_ne {index : Nat} (h : index ≠ registry.index) :
    (registry.defineWithAliases name shorthands definition).Keeps
      fun world after => after.state index = world.state index := by
  have hK := Work.compositional_keeps (R := fun world after => after.state index = world.state index)
    (fun _ => rfl) fun _ _ _ hab hbc => hbc.trans hab
  have hregister (change : State → Except Failure State) :
      (Work.register registry change).Keeps fun world after =>
        after.state index = world.state index := by
    refine Work.keeps_register (R := fun world after => after.state index = world.state index)
      (fun _ => rfl) fun world state _ => ?_
    rw [World.state_withState, if_neg h]
  exact hK.bind (hregister _) fun _ => hK.forM fun _ _ => hregister _

/-- **A definition with aliases that are all taken leaves the container as it was exactly if it was all
there already.** -/
theorem state_eq_iff_repeats
    (h : registry.defineWithAliases name shorthands definition world = (.ok (), after)) :
    after.state registry.index = world.state registry.index ↔
      (world.state registry.index).Repeats name shorthands definition := by
  obtain ⟨⟨⟩, between, hdefine, haliases⟩ := Work.bind_eq_ok h
  obtain ⟨defined, hdefined, rfl⟩ := Work.register_of_ok hdefine
  have hstate : (world.withState registry.index defined).state registry.index =
      (world.state registry.index).defining name definition := by
    rw [World.state_withState, if_pos rfl]
    exact (State.define_eq_ok_iff.mp hdefined).2.2
  constructor
  · intro hsame
    have hunbound : ((world.state registry.index).defining name definition).Binds name [] :=
      ⟨(Table.find?_erase _ _ _).trans (if_pos rfl), fun _ hmem => nomatch hmem⟩
    obtain ⟨⟨hname, hbound⟩, honly⟩ := binds_of_forM_addAlias haliases (hstate.symm ▸ hunbound)
    rw [hstate, hsame] at honly
    rw [hsame] at hname hbound
    have hdefinitions := congrArg State.definitions honly
    have hsingletons := congrArg State.singletons honly
    have hproducts := congrArg State.products honly
    refine ⟨?_, hname, hbound, congrArg State.merged honly, ?_, ?_⟩
    · rw [hdefinitions]
      exact (Table.find?_insert _ _ _ _).trans (if_pos rfl)
    · rw [hsingletons]
      exact (Table.find?_erase _ _ _).trans (if_pos rfl)
    · rw [hproducts]
      exact (Table.find?_erase _ _ _).trans (if_pos rfl)
  · intro hrepeats
    have hunchanged := hstate.trans hrepeats.defining_eq
    rw [state_of_forM_addAlias (List.Subset.refl _) haliases (hunchanged.symm ▸ hrepeats), hunchanged]

/-- A definition with aliases is refused as a whole, or it breaks off at an alias. -/
theorem defineWithAliases_of_error {stop : Stop}
    (h : registry.defineWithAliases name shorthands definition world = (.error stop, after)) :
    after = world ∨
      ∃ taken refused rest failure, shorthands = taken ++ refused :: rest ∧
        registry.defineWithAliases name taken definition world = (.ok (), after) ∧
        State.addAlias registry.settings name refused (after.state registry.index) =
          .error failure := by
  unfold defineWithAliases at h
  rw [Work.bind_apply] at h
  rcases hdefine : registry.define name definition world with ⟨outcome, defined⟩
  rw [hdefine] at h
  cases outcome with
  | error stop' =>
    cases h
    exact Or.inl (Work.register_of_error hdefine).1
  | ok _ =>
    obtain ⟨taken, refused, rest, between, hsplit, htaken, hrefused⟩ := Work.forM_eq_error h
    obtain ⟨rfl, failure, hfailure⟩ := Work.register_of_error hrefused
    refine Or.inr ⟨taken, refused, rest, failure, hsplit, ?_, hfailure⟩
    unfold defineWithAliases
    rw [Work.bind_apply_ok hdefine]
    exact htaken

/-- It fails if it breaks off. -/
theorem defineWithAliases_of_breaksOff {taken rest : List String} {refused : String}
    {failure : Failure}
    (htaken : registry.defineWithAliases name taken definition world = (.ok (), after))
    (hrefused : State.addAlias registry.settings name refused (after.state registry.index) =
      .error failure) :
    registry.defineWithAliases name (taken ++ refused :: rest) definition world =
      (.error (.failure failure), after) := by
  obtain ⟨⟨⟩, between, hdefine, haliases⟩ := Work.bind_eq_ok htaken
  unfold defineWithAliases
  rw [Work.bind_apply_ok hdefine, Work.forM_append_apply haliases]
  have hfails : registry.addAlias name refused after = (.error (.failure failure), after) := by
    unfold addAlias
    rw [Work.register_apply, hrefused]
  exact Work.bind_apply_error hfails

/-! ## What refusals leave behind -/

/-- If the registration is refused, all containers are as they were. -/
def LeavesNoTrace (registry : Registry) (registration : Registration) (world : World) : Prop :=
  ∀ stop after, registry.take registration world = (.error stop, after) →
    ∀ index, after.state index = world.state index

/-- The definition is taken with some of its aliases, which were not all there before, and the next
alias is refused. -/
def BreaksOff (registry : Registry) (world : World) : Registration → Prop
  | .holder name shorthands definition =>
    ∃ taken refused rest after failure, shorthands = taken ++ refused :: rest ∧
      registry.defineWithAliases name taken definition world = (.ok (), after) ∧
      State.addAlias registry.settings name refused (after.state registry.index) = .error failure ∧
      ¬ (world.state registry.index).Repeats name taken definition
  | _ => False

/-- **A registration that is refused leaves no trace exactly if it does not break off with something
taken.** -/
theorem leavesNoTrace_iff (registry : Registry) (registration : Registration) (world : World) :
    registry.LeavesNoTrace registration world ↔ ¬ registry.BreaksOff world registration := by
  have hstep {change : State → Except Failure State}
      (htake : registry.take registration = Work.register registry change) :
      registry.LeavesNoTrace registration world := by
    intro stop after h index
    rw [htake] at h
    rw [(Work.register_of_error h).1]
  cases registration with
  | definition name definition => exact iff_of_true (hstep rfl) id
  | removal name => exact iff_of_true (hstep rfl) id
  | shorthand name shorthand => exact iff_of_true (hstep rfl) id
  | singleton name value => exact iff_of_true (hstep rfl) id
  | holder name shorthands definition =>
    constructor
    · rintro h ⟨taken, refused, rest, after, failure, rfl, htaken, hrefused, hnew⟩
      have hfails : registry.defineWithAliases name (taken ++ refused :: rest) definition world =
          (.error (.failure failure), after) := defineWithAliases_of_breaksOff htaken hrefused
      exact hnew ((state_eq_iff_repeats htaken).mp (h _ _ hfails registry.index))
    · intro h stop after hfails index
      rcases defineWithAliases_of_error hfails with rfl |
        ⟨taken, refused, rest, failure, hsplit, htaken, hrefused⟩
      · rfl
      · by_cases hindex : index = registry.index
        · rw [hindex]
          refine (state_eq_iff_repeats htaken).mpr ?_
          by_contra hnew
          exact h ⟨taken, refused, rest, after, failure, hsplit, htaken, hrefused, hnew⟩
        · have hother : (registry.defineWithAliases name taken definition world).2.state index =
              world.state index := state_of_defineWithAliases_ne hindex world
          rwa [htaken] at hother

/-! ### A definition whose alias is refused -/

/-- The name `a` is that of a definition. -/
def definingOperations : List (Operation (Family.lone { index := 0 })) :=
  [.register (Registry.lone { index := 0 }) (.definition "a" { className := some "A" })]

/-- The definition `n` is refused for its alias `a`, and is there all the same. -/
theorem not_leavesNoTrace_of_alias_defined :
    ¬ Registry.LeavesNoTrace { index := 0 } (.holder "n" ["a"] { className := some "N" })
      (World.after definingOperations) := by
  intro h
  have hsame := congrArg (fun state => state.definitions.contains "n") (h _ _ rfl 0)
  exact absurd hsame (by decide)

end Registry

end Injector
