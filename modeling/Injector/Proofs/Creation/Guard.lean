import Injector.Proofs.Requests.Frame

/-!
# Creating beans under guard

The bean of a name counts as being created while its inputs are had and its constructor is called. The
guard changes which beans are being created, and changes that back on every way out. In between, nothing
that is asked for calls the constructor of that bean (`guarded_advances`), so it is called once at most,
and what it made is kept if there is one shared instance (`instanceOf_advances`).

With that, serving advances the world at every depth (`serve_advancing`), and so does whatever else is
asked (`Inquiry.advancing`). In a world that a run leads to no bean is being created
(`Reachable.idle`), and `Chain.bean_frame` puts together what having a bean leaves of all containers.
-/

namespace Injector

variable {family : Family}

/-! ## Merged definitions -/

theorem World.contains_keepMerged {index : Nat} {name : String} {definition : Definition}
    {additions : List (Nat × String × Definition)} (h : (index, name, definition) ∈ additions) :
    ∀ world : World, ((world.keepMerged additions).state index).merged.contains name = true := by
  induction additions with
  | nil => cases h
  | cons addition rest ih =>
    intro world
    rcases List.mem_cons.mp h with rfl | hrest
    · have hnow : ((world.withState index { world.state index with
          merged := (world.state index).merged.insertNew name definition }).state
            index).merged.find? name =
          some (((world.state index).merged.find? name).getD definition) := by
        rw [World.state_withState, if_pos rfl, Table.find?_insertNew, if_pos rfl]
      have hframed := Statewise.keepMerged State.Framed.refl State.Framed.trans
        State.Framed.keepMerged rest (world.withState index { world.state index with
          merged := (world.state index).merged.insertNew name definition }) index
      obtain ⟨now, hkept, -⟩ := hframed.merged name _ hnow
      exact Table.contains_of_find? hkept
    · exact ih hrest _

/-- The merged definition of a bean is kept once it was asked for. -/
theorem mergedDefinition_kept {member : family.Member} {name : String} {world after : World}
    {merged : Definition} (hundefined : world.AliasesUndefined)
    (hdefined : (world.state member.registry.index).definitions.contains name = true)
    (h : mergedDefinition member.chain name world = (.ok merged, after)) :
    ∃ now, (after.state member.registry.index).merged.find? name = some now ∧
      now.bare = merged.bare := by
  have hcanonical := hundefined.canonicalName hdefined
  have hrests : World.RestsOn family world world := (World.Keeping.refl family world).toRestsOn
  obtain ⟨found, hfound, rfl, rfl⟩ := Work.takeMerged_eq_ok h
  have hdescends := hrests.mergedIn_descends _ member.chain_has name found hfound
  have hkeeping := (World.Keeping.refl family world).keepMerged found.additions hdescends.derived
  have hcontains : ((world.keepMerged found.additions).state
      member.registry.index).merged.contains name = true := by
    unfold Family.Member.chain at hfound
    rw [World.mergedIn, hcanonical] at hfound
    rcases State.mergedFrom_eq_ok hfound with ⟨kept, hkept, rfl⟩ |
      ⟨-, ⟨hnone, -⟩ | ⟨definition, completed, -, -, -, rfl⟩⟩
    · exact Table.contains_of_find? hkept
    · rw [Table.contains, hnone] at hdefined
      cases hdefined
    · exact World.contains_keepMerged (List.mem_append_right _ (List.mem_singleton_self _)) world
  obtain ⟨now, hnow⟩ := (Table.contains_iff_find? _ _).mp hcontains
  refine ⟨now, hnow, ?_⟩
  -- both are what the world said before
  obtain ⟨_, hdescent⟩ := hdescends.descent
  obtain ⟨_, hdescent'⟩ := hkeeping.descends member name now hnow
  have hcanonicalIn : world.canonicalIn member.chain name = name := hcanonical
  rw [hcanonicalIn] at hdescent
  exact (hdescent'.unique hdescent).2

/-! ## Creating a bean -/

/-- What creating a bean by a definition makes of the world: what it asks for, and then a call of the
constructor, unless it is refused before. -/
inductive Creates (family : Family) (index : Nat) (owner : Owner) (definition : Definition)
    (world : World) : Except Stop Value → World → Prop
  | refused {after : World} (stop : Stop) (h : world.Advances family after) :
      Creates family index owner definition world (.error stop) after
  | called {between : World} {result : Except Stop Value} (made : Nat) (construction : Construction)
      (h : world.Advances family between)
      (hindex : construction.registry = index) (howner : construction.owner = owner)
      (hclass : definition.className = some construction.className)
      (hmade : construction.made = result.toOption)
      (hsucceeded : ∀ value, result = .ok value → construction.Succeeded family) :
      Creates family index owner definition world result
        ({ between with made := made }.noting (.constructed construction))

/-- Calling a constructor is noted with what it made. -/
theorem construct_cases (registry : Registry) (owner : Owner) (className : String)
    (constructor : Constructor) (inputs : BeanInputs) (world : World) :
    ∃ (result : Except Stop Value) (made : Nat) (construction : Construction),
      construct registry owner className constructor inputs world =
        (result, { world with made := made }.noting (.constructed construction)) ∧
      construction = { registry := registry.index, owner, className, inputs, made := result.toOption } ∧
      ∀ value, result = .ok value →
        ∃ blueprint, constructor inputs = .ok blueprint ∧ value = (world.makeBean blueprint).1 := by
  unfold construct
  cases hconstructor : constructor inputs with
  | error cause => exact ⟨_, world.made, _, rfl, rfl, fun _ hok => nomatch hok⟩
  | ok blueprint =>
    have hend : ∀ value, (.ok (world.makeBean blueprint).1 : Except Stop Value) = .ok value →
        ∃ blueprint', Except.ok (ε := Failure) blueprint = .ok blueprint' ∧
          value = (world.makeBean blueprint').1 := by
      intro value hok
      cases hok
      exact ⟨blueprint, rfl, rfl⟩
    cases blueprint with
    | null => exact ⟨_, world.made, _, rfl, rfl, hend⟩
    | plain typeName => exact ⟨_, world.made + 1, _, rfl, rfl, hend⟩
    | factory typeName maker => exact ⟨_, world.made + 1, _, rfl, rfl, hend⟩

variable {handler : Handler}

/-- Creating a bean is having its inputs and one call of its constructor at most. -/
theorem instantiate_creates (hh : handler.Within family fun _ work => work.Advancing family)
    (member : family.Member) (depth : Nat) (name : String) (owner : Owner) (definition : Definition)
    {world : World} (hundefined : world.AliasesUndefined) :
    ∃ result after, instantiate handler depth member.registry member.ancestors name owner definition
        world = (result, after) ∧
      Creates family member.registry.index owner definition world result after := by
  rcases instantiate_cases handler depth member.registry member.ancestors name owner definition with
    ⟨failure, heq⟩ | ⟨className, constructor, reword, hclass, hconstructor, heq⟩
  · exact ⟨_, _, congrFun heq world, .refused _ (.refl family world)⟩
  · rw [heq, Work.bind_apply]
    have hinputs := (housekeeping_advancing family).inputs_mem (Work.compositional_advancing family) hh
      member depth name owner definition world hundefined
    rcases hresolved : (member.registry.resolution member.ancestors handler depth name owner
      definition).inputs world with ⟨stop | inputs, between⟩ <;> rw [hresolved] at hinputs
    · exact ⟨_, _, rfl, .refused stop hinputs⟩
    · dsimp only
      obtain ⟨result, made, construction, hrun, rfl, hmade⟩ :=
        construct_cases member.registry owner className constructor inputs between
      cases result with
      | error stop =>
        obtain ⟨stop', hexplained⟩ := Work.explain_apply_error reword hrun
        exact ⟨_, _, hexplained, .called made _ hinputs rfl rfl hclass rfl fun _ hok => nomatch hok⟩
      | ok value =>
        refine ⟨_, _, Work.explain_apply_ok reword hrun,
          .called made _ hinputs rfl rfl hclass rfl fun value' hok => ?_⟩
        cases hok
        obtain ⟨blueprint, hblueprint, hvalue⟩ := hmade value rfl
        exact ⟨member, constructor, blueprint, between, rfl, hconstructor, hblueprint,
          congrArg some hvalue⟩

/-! ## The guard -/

/-- The world in which other beans of a container are being created. -/
def World.creating (world : World) (index : Nat) (names : NameSet) : World :=
  world.withState index { world.state index with inCreation := names }

theorem World.state_creating (world : World) (index other : Nat) (names : NameSet) :
    (world.creating index names).state other =
      { world.state other with
        inCreation := if other = index then names else (world.state other).inCreation } := by
  unfold creating
  rw [state_withState]
  split
  · next he => rw [he]
  · rfl

/-- A bean that is being created already is refused. -/
theorem guarded_of_creating {registry : Registry} {name : String} {world : World} (work : Work Value)
    (h : (world.state registry.index).inCreation.contains name = true) :
    guarded registry name work world = (.error (.failure (.currentlyInCreation name)), world) := by
  unfold guarded
  rw [Work.state_bind_apply, if_pos h]
  rfl

theorem guarded_of_idle {registry : Registry} {name : String} {world after : World}
    {work : Work Value} {result : Except Stop Value}
    (h : (world.state registry.index).inCreation.contains name = false)
    (hwork : work (world.creating registry.index
      ((world.state registry.index).inCreation.insert name)) = (result, after)) :
    guarded registry name work world =
      (result, after.creating registry.index
        ((after.state registry.index).inCreation.erase name)) := by
  have hset : Work.update registry
      (fun state => { state with inCreation := state.inCreation.insert name }) world =
        (.ok (), world.creating registry.index
          ((world.state registry.index).inCreation.insert name)) := rfl
  unfold guarded
  rw [Work.state_bind_apply, if_neg (by rw [h]; exact Bool.false_ne_true), Work.bind_apply_ok hset]
  unfold Work.endingWith
  rw [hwork]
  rfl

/-- What becomes of a singleton is a matter of what is kept, of which beans are being created, and of
the calls of its constructor. -/
theorem Fate.congr {world world' after after' : World} {new new' : List Event} {index : Nat}
    {name : String}
    (hsingletons : (world'.state index).singletons.find? name =
      (world.state index).singletons.find? name)
    (hcreation : (world'.state index).inCreation.contains name =
      (world.state index).inCreation.contains name)
    (hafter : (after'.state index).singletons.find? name =
      (after.state index).singletons.find? name)
    (hdefinitions : (after'.state index).definitions = (after.state index).definitions)
    (hmerged : (after'.state index).merged = (after.state index).merged)
    (hattempts : attempts index name new' = attempts index name new)
    (h : Fate family world after new index name) : Fate family world' after' new' index name := by
  have hinstances : instances index name new' = instances index name new := by
    unfold instances
    rw [hattempts]
  cases h with
  | unchanged hsame hidle hmade =>
    refine .unchanged ?_ ?_ ?_
    · rw [hafter, hsingletons, hsame]
    · rw [Table.contains, hsingletons, hcreation, hattempts]
      exact hidle
    · rw [hinstances, hmerged]
      exact hmade
  | made value hnone hidle hkept honce hshares =>
    refine .made value ?_ ?_ ?_ ?_ ⟨?_, ?_⟩
    · rw [hsingletons, hnone]
    · rw [hcreation, hidle]
    · rw [hafter, hkept]
    · rw [hinstances, honce]
    · rw [hdefinitions]
      exact hshares.defined
    · rw [hmerged, hattempts]
      exact hshares.made

/-- The constructor was called once, for the class of the definition, and the result is what it made; or
it was not called, and there is none. -/
def CallsOnce (family : Family) (index : Nat) (definition : Definition) (result : Except Stop Value)
    (calls : List Construction) : Prop :=
  (calls = [] ∧ result.toOption = none) ∨
    ∃ construction, calls = [construction] ∧ construction.registry = index ∧
      definition.className = some construction.className ∧
      construction.made = result.toOption ∧
      ∀ value, result = .ok value → construction.Succeeded family

/-- What creating the bean of a name itself makes of the world. -/
structure Guarded (family : Family) (index : Nat) (name : String) (definition : Definition)
    (world : World) (result : Except Stop Value) (after : World) (new : List Event) : Prop where
  framed : Statewise State.Framed world after
  journal : after.journal = new ++ world.journal
  others : ∀ other wanted, ¬(other = index ∧ wanted = name) →
    Fate family world after new other wanted
  unkept : (after.state index).singletons.find? name = (world.state index).singletons.find? name
  once : CallsOnce family index definition result (attempts index name new)

/-- While a bean is being created, its constructor is not called for anything that is asked for. So all
calls are those that come behind. -/
theorem guarded_advances {index : Nat} {name : String} {world between : World} (after : World)
    (own : List Event) (hidle : (world.state index).inCreation.contains name = false)
    (h : (world.creating index ((world.state index).inCreation.insert name)).Advances family between)
    (hstates : after.states = between.states) (hjournal : after.journal = own ++ between.journal)
    (hown : ∀ other wanted, ¬(other = index ∧ wanted = name) → attempts other wanted own = [])
    {definition : Definition} {result : Except Stop Value}
    (honce : CallsOnce family index definition result (attempts index name own)) :
    ∃ new, Guarded family index name definition world result
      (after.creating index ((after.state index).inCreation.erase name)) new := by
  have hstate : ∀ other, after.state other = between.state other := by
    intro other
    unfold World.state
    rw [hstates]
  obtain ⟨new, hnew, hfates⟩ := h.fates
  have hbusy : ((world.creating index ((world.state index).inCreation.insert name)).state
      index).inCreation.contains name = true := by
    rw [World.state_creating, if_pos rfl]
    exact (NameSet.contains_iff_mem_names _ _).mpr ((NameSet.mem_names_insert _ _ _).mpr (Or.inl rfl))
  obtain ⟨hnothing, hsame⟩ := (hfates index name).of_creating hbusy
  -- taking the name off again gives back which beans were being created before
  refine ⟨own ++ new, fun other => ?_, ?_, ?_, ?_, ?_⟩
  · have hframed := h.framed other
    rw [World.state_creating] at hframed ⊢
    rw [hstate]
    by_cases he : other = index
    · subst he
      rw [if_pos rfl] at hframed ⊢
      rw [hstate]
      exact hframed.guarded hidle
    · rw [if_neg he] at hframed ⊢
      exact hframed
  · show after.journal = _
    rw [hjournal, hnew, List.append_assoc]
    rfl
  · intro other wanted hother
    refine Fate.congr ?_ ?_ ?_ ?_ ?_ ?_ (hfates other wanted)
    · rw [World.state_creating]
    · rw [World.state_creating]
      dsimp only
      split
      · next he =>
        subst he
        rw [Bool.eq_iff_iff, NameSet.contains_iff_mem_names, NameSet.contains_iff_mem_names,
          NameSet.mem_names_insert]
        exact ⟨Or.inr, fun hmem => hmem.resolve_left fun hw => hother ⟨rfl, hw⟩⟩
      · rfl
    · rw [World.state_creating, hstate]
    · rw [World.state_creating, hstate]
    · rw [World.state_creating, hstate]
    · rw [attempts_append, hown other wanted hother, List.nil_append]
  · rw [World.state_creating, hstate, hsame, World.state_creating]
  · rw [attempts_append, hnothing, List.append_nil]
    exact honce

/-- Creating a bean while it counts as being created. -/
theorem Creates.guarded {index : Nat} {name : String} {definition : Definition} {world after : World}
    {result : Except Stop Value}
    (hidle : (world.state index).inCreation.contains name = false)
    (h : Creates family index (.merged index name) definition
      (world.creating index ((world.state index).inCreation.insert name)) result after) :
    ∃ new, Guarded family index name definition world result
      (after.creating index ((after.state index).inCreation.erase name)) new := by
  cases h with
  | refused stop h =>
    exact guarded_advances _ [] hidle h rfl rfl (fun _ _ _ => rfl) (Or.inl ⟨rfl, rfl⟩)
  | @called between _ made construction h hindex howner hclass hmade hsucceeded =>
    have hself : attempts index name [.constructed construction] = [construction] := by
      unfold attempts
      rw [List.filterMap_cons, Event.construction?, if_pos howner]
      rfl
    refine guarded_advances ({ between with made := made }.noting (.constructed construction))
      [.constructed construction] hidle h rfl rfl (fun other wanted hother => ?_) (Or.inr ?_)
    · unfold attempts
      rw [List.filterMap_cons, Event.construction?, if_neg]
      · rfl
      · rw [howner]
        rintro ⟨⟩
        exact hother ⟨rfl, rfl⟩
    · exact ⟨construction, hself, hindex, hclass, hmade, hsucceeded⟩

/-- Creating the bean of a name without keeping it, where every request gets a new instance. -/
theorem Guarded.advances {index : Nat} {name : String} {definition now : Definition}
    {world after : World} {result : Except Stop Value} {new : List Event}
    (h : Guarded family index name definition world result after new)
    (hidle : (world.state index).inCreation.contains name = false)
    (hnone : (world.state index).singletons.find? name = none)
    (hkept : (world.state index).merged.find? name = some now)
    (hmade : result.toOption = none ∨ now.isSingleton = false) : world.Advances family after where
  framed := h.framed
  fates := by
    refine ⟨new, h.journal, fun other wanted => ?_⟩
    by_cases hself : other = index ∧ wanted = name
    · obtain ⟨rfl, rfl⟩ := hself
      refine .unchanged h.unkept (fun hbusy => ?_) ?_
      · rw [Table.contains, hnone, hidle] at hbusy
        simp at hbusy
      · rcases hmade with hnothing | hprototype
        · refine Or.inl ?_
          unfold instances
          rcases h.once with ⟨hcalls, -⟩ | ⟨construction, hcalls, -, -, hmade, -⟩
          · rw [hcalls]
            rfl
          · rw [hcalls, List.filterMap_cons, hmade, hnothing]
            rfl
        · obtain ⟨later, hlater, hbare⟩ := (h.framed other).merged wanted now hkept
          exact Or.inr ⟨later, hlater, (scope_eq_of_bare hbare).trans hprototype⟩
    · exact h.others other wanted hself

/-- Keeping the singleton of a name does not matter to any other one. -/
theorem Fate.keepSingleton {world after : World} {new : List Event} {index other : Nat}
    {name wanted : String} (h : Fate family world after new other wanted)
    (hother : ¬(other = index ∧ wanted = name)) (value : Value) :
    Fate family world (after.withState index { after.state index with
      singletons := (after.state index).singletons.insertNew name value }) new other wanted := by
  refine Fate.congr rfl rfl ?_ ?_ ?_ rfl h <;> rw [World.state_withState] <;> split
  · next he =>
    subst he
    exact (Table.find?_insertNew _ _ _ _).trans (if_neg fun hw => hother ⟨rfl, hw⟩)
  · rfl
  · next he => rw [he]
  · rfl
  · next he => rw [he]
  · rfl

/-- Creating the bean of a name and keeping it. -/
theorem Guarded.keep {index : Nat} {name : String} {definition now : Definition}
    {world after : World} {value : Value} {new : List Event}
    (h : Guarded family index name definition world (.ok value) after new)
    (hidle : (world.state index).inCreation.contains name = false)
    (hnone : (world.state index).singletons.find? name = none)
    (hkept : (world.state index).merged.find? name = some now) (hbare : now.bare = definition.bare)
    (hsingleton : definition.isSingleton = true)
    (hdefined : (world.state index).definitions.contains name = true) :
    world.Advances family (after.withState index
      { after.state index with
        singletons := (after.state index).singletons.insertNew name value }) where
  framed := Statewise.trans State.Framed.trans _ _ _ h.framed
    (Statewise.withState State.Framed.refl (.keepSingleton _ name value))
  fates := by
    have hstate (other : Nat) := World.state_withState after index other
      { after.state index with
        singletons := (after.state index).singletons.insertNew name value }
    refine ⟨new, h.journal, fun other wanted => ?_⟩
    by_cases hself : other = index ∧ wanted = name
    · obtain ⟨rfl, rfl⟩ := hself
      obtain ⟨later, hlater, hbare'⟩ := (h.framed other).merged wanted now hkept
      -- there is a result, so it is that of the one call
      rcases h.once with ⟨-, hnothing⟩ | ⟨construction, hcalls, hindex, hclass, hmade, hsucceeded⟩
      · cases hnothing
      · refine .made value hnone hidle ?_ ?_ ⟨?_, later, ?_, ?_, construction, ?_, hindex, ?_,
          hsucceeded value rfl, hmade⟩
        · rw [hstate, if_pos rfl, Table.find?_insertNew, if_pos rfl, h.unkept, hnone]
          rfl
        · unfold instances
          rw [hcalls, List.filterMap_cons, hmade]
          rfl
        · rw [hstate, if_pos rfl, (h.framed other).sources.1]
          exact hdefined
        · rw [hstate, if_pos rfl]
          exact hlater
        · rw [scope_eq_of_bare hbare', scope_eq_of_bare hbare, hsingleton]
        · rw [hcalls]
          exact List.mem_singleton_self _
        · rw [className_eq_of_bare hbare', className_eq_of_bare hbare, hclass]
    · exact (h.others other wanted hself).keepSingleton hself value

/-- Creating a bean under its guard is refused, which changes nothing, or the guard was free. -/
theorem guarded_instantiate (hh : handler.Within family fun _ work => work.Advancing family)
    (member : family.Member) (depth : Nat) (name : String) (merged : Definition) {world : World}
    (hundefined : world.AliasesUndefined) :
    ∃ result after,
      guarded member.registry name (instantiate handler depth member.registry member.ancestors name
          (.merged member.registry.index name) merged) world = (result, after) ∧
        ((after = world ∧ result.toOption = none) ∨
          (world.state member.registry.index).inCreation.contains name = false ∧
            ∃ new, Guarded family member.registry.index name merged world result after new) := by
  cases hidle : (world.state member.registry.index).inCreation.contains name with
  | true => exact ⟨_, _, guarded_of_creating _ hidle, Or.inl ⟨rfl, rfl⟩⟩
  | false =>
    have hundefined' : (world.creating member.registry.index
        ((world.state member.registry.index).inCreation.insert name)).AliasesUndefined := by
      refine hundefined.of_sameSources fun other => ?_
      rw [World.state_creating]
      exact ⟨rfl, rfl⟩
    obtain ⟨result, after, hrun, hcreates⟩ := instantiate_creates hh member depth name
      (.merged member.registry.index name) merged hundefined'
    exact ⟨_, _, guarded_of_idle hidle hrun, Or.inr ⟨rfl, hcreates.guarded hidle⟩⟩

/-- **Having the instance of a bean that is defined in a container.** -/
theorem instanceOf_advances (hh : handler.Within family fun _ work => work.Advancing family)
    (member : family.Member) (depth : Nat) {name : String} {merged now : Definition} {world : World}
    (hundefined : world.AliasesUndefined)
    (hdefined : (world.state member.registry.index).definitions.contains name = true)
    (hkept : (world.state member.registry.index).merged.find? name = some now)
    (hbare : now.bare = merged.bare)
    (hprototype : merged.isSingleton = false →
      (world.state member.registry.index).singletons.find? name = none) :
    world.Advances family
      (instanceOf handler depth member.registry member.ancestors name merged world).2 := by
  have hscope : now.isSingleton = merged.isSingleton := scope_eq_of_bare hbare
  -- whether it is to be kept or not, it is created under the same guard
  obtain ⟨result, after, hrun, hcreated⟩ :=
    guarded_instantiate hh member depth name merged hundefined
  unfold instanceOf
  split
  · next hsingleton =>
    unfold singletonOr
    rw [Work.state_bind_apply]
    cases hnone : (world.state member.registry.index).singletons.find? name with
    | some shared => exact .refl family world
    | none =>
      dsimp only
      cases result with
      | error stop =>
        rw [Work.bind_apply_error hrun]
        rcases hcreated with ⟨rfl, -⟩ | ⟨hidle, new, hguarded⟩
        · exact .refl family _
        · exact hguarded.advances hidle hnone hkept (Or.inl rfl)
      | ok value =>
        rw [Work.bind_apply_ok hrun]
        rcases hcreated with ⟨-, hnothing⟩ | ⟨hidle, new, hguarded⟩
        · cases hnothing
        · exact hguarded.keep hidle hnone hkept hbare hsingleton hdefined
  · next hscoped =>
    have hscoped := Bool.eq_false_iff.mpr hscoped
    rw [hrun]
    rcases hcreated with ⟨rfl, -⟩ | ⟨hidle, new, hguarded⟩
    · exact .refl family _
    · exact hguarded.advances hidle (hprototype hscoped) hkept (Or.inr (hscope.trans hscoped))

/-! ## Having a bean -/

/-- A bean that no instance is kept of although it was asked for: none was kept before. -/
theorem World.Advances.unkept {world after : World} (h : world.Advances family after) {index : Nat}
    {name : String} {now : Definition}
    (hnone : (world.state index).singletons.find? name = none)
    (hkept : (after.state index).merged.find? name = some now) (hscope : now.isSingleton = false) :
    (after.state index).singletons.find? name = none := by
  obtain ⟨new, -, hfates⟩ := h.fates
  cases hfates index name with
  | unchanged hsame => exact hsame.trans hnone
  | made value _ _ _ _ hshares =>
    have hsingleton := hshares.isSingleton hkept
    rw [hscope] at hsingleton
    cases hsingleton

/-- Nothing is kept of a bean that is being created all the time. -/
theorem World.Advances.unkept_of_creating {world after : World} (h : world.Advances family after)
    {index : Nat} {name : String} (hnone : (world.state index).singletons.find? name = none)
    (hcreating : (world.state index).inCreation.contains name = true) :
    (after.state index).singletons.find? name = none := by
  obtain ⟨new, -, hfates⟩ := h.fates
  exact ((hfates index name).of_creating hcreating).2.trans hnone

/-- **Having a bean by its name advances the world.** -/
theorem fetchBean_advancing (hh : handler.Within family fun _ work => work.Advancing family)
    (member : family.Member) (depth : Nat) (written : String) :
    (fetchBean handler depth member.registry member.ancestors written).Advancing family := by
  have hK := housekeeping_advancing family
  intro world hundefined
  unfold fetchBean
  rw [Work.state_bind_apply]
  dsimp only
  generalize hname : (world.state member.registry.index).canonicalName (plainName written) = name
  cases hnone : (world.state member.registry.index).singletons.find? name with
  | some shared => exact hK.exposed member.has _ _ _ _ world hundefined
  | none =>
    dsimp only
    split
    · next hdefined =>
      refine .bind (hK.merged member.has name world hundefined) fun merged first hmerged hfirst => ?_
      obtain ⟨now, hkept, hbare⟩ := mergedDefinition_kept hundefined hdefined hmerged
      have hundefined₁ := hfirst.aliasesUndefined hundefined
      refine .bind (hK.realizePrerequisites hh.1 member.has name merged first hundefined₁)
        fun _ second _ hsecond => ?_
      obtain ⟨later, hlater, hsame⟩ := (hsecond.framed _).merged name now hkept
      have hbare' : later.bare = merged.bare := hsame.trans hbare
      have hundefined₂ := hsecond.aliasesUndefined hundefined₁
      have hdefined' : (second.state member.registry.index).definitions.contains name = true := by
        rw [((hfirst.trans hsecond).framed _).sources.1]
        exact hdefined
      refine .bind (instanceOf_advances hh member depth hundefined₂ hdefined' hlater hbare' ?_)
        fun made third _ hthird => ?_
      · exact fun hscope => (hfirst.trans hsecond).unkept hnone hlater
          ((scope_eq_of_bare hbare').trans hscope)
      · exact hK.exposed member.has _ _ _ _ third (hthird.aliasesUndefined hundefined₂)
    · exact hK.fetchAbove hh.1 (family.ancestors_has member.has) _ _ world hundefined

theorem step_advancing (hh : handler.Within family fun _ work => work.Advancing family) (depth : Nat) :
    (step handler depth).Within family fun _ work => work.Advancing family := by
  have hK := Work.compositional_advancing family
  refine ⟨fun chain name hf => ?_, fun chain name definition hf => ?_⟩
  · cases chain with
    | nil => exact hK.fail _
    | cons registry ancestors =>
      exact hK.bind (fetchBean_advancing hh ⟨registry, ancestors, hf⟩ depth name) fun value =>
        hK.bind (fun _ _ => .noting fun _ _ => rfl) fun _ => hK.pure _
  · cases chain with
    | nil => exact hK.fail _
    | cons registry ancestors =>
      intro world hundefined
      obtain ⟨result, after, hrun, hcreates⟩ := instantiate_creates hh ⟨registry, ancestors, hf⟩ depth
        name .nothing definition hundefined
      show world.Advances family
        (instantiate handler depth registry ancestors name .nothing definition world).2
      rw [hrun]
      cases hcreates with
      | refused stop h => exact h
      | called made construction h _ howner =>
        -- what is made without an owner is not the bean of any name itself
        refine h.trans (.of_states rfl [.constructed construction] rfl fun index name => ?_)
        unfold attempts
        rw [List.filterMap_cons, Event.construction?, howner, if_neg (by simp)]
        rfl

/-- **Serving advances the world at every depth.** -/
theorem serve_advancing (family : Family) :
    ∀ depth : Nat, (serve depth).Within family fun _ work => work.Advancing family
  | 0 => ⟨fun _ _ _ => (Work.compositional_advancing family).tooDeep,
      fun _ _ _ _ => (Work.compositional_advancing family).tooDeep⟩
  | depth + 1 => step_advancing (serve_advancing family depth) depth

/-- **Asking advances the world.** -/
theorem Inquiry.advancing (member : family.Member) (depth : Nat) (inquiry : Inquiry) :
    (inquiry.answer depth member.registry member.ancestors).Advancing family :=
  (housekeeping_advancing family).answer (Work.compositional_advancing family)
    (serve_advancing family depth) member.has
    (fun _ _ _ => .of_states rfl [] rfl fun _ _ => rfl) inquiry

/-! ## Worlds that runs lead to -/

/-- Registering does not touch which beans are being created. -/
theorem Registry.take_inCreation (registry : Registry) (registration : Registration) :
    (registry.take registration).Keeps
      (Statewise fun state after => after.inCreation = state.inCreation) := by
  refine Registry.take_statewise (Q := fun state after => after.inCreation = state.inCreation)
    (fun _ => rfl) (fun _ _ _ hab hbc => hbc.trans hab) ?_ ?_ ?_ ?_ registration
  · intro name definition state after hok
    obtain ⟨-, -, rfl⟩ := State.define_eq_ok_iff.mp hok
    rfl
  · intro name shorthand state after hok
    rcases State.addAlias_eq_ok hok with ⟨-, rfl⟩ | ⟨-, rfl⟩ | ⟨-, -, -, -, rfl⟩ <;> rfl
  · intro name state after hok
    obtain ⟨-, rfl⟩ := State.remove_eq_ok_iff.mp hok
    rfl
  · intro name value state after hok
    obtain ⟨-, rfl⟩ := State.addSingleton_eq_ok_iff.mp hok
    rfl

/-- Between the operations of a run, no bean is being created. -/
theorem Reachable.idle {world : World} (h : Reachable family world) (index : Nat) :
    (world.state index).inCreation = .empty := by
  refine h.induction (P := fun world => ∀ index, (world.state index).inCreation = .empty)
    (fun _ => rfl) (fun world operation hreachable hidle index => ?_) index
  cases operation with
  | register member registration =>
    exact (Registry.take_inCreation member.registry registration world index).trans (hidle index)
  | inquire member depth inquiry =>
    have hadvances := inquiry.advancing member depth world hreachable.aliasesUndefined
    exact (hadvances.framed index).inCreation.trans (hidle index)

/-- **Having a bean leaves all containers as they are but for what is new.** Whatever comes of it,
definitions and aliases are the same, no bean is being created afterwards, what was kept is kept, and
links have only grown. A singleton that is new is that of a definition for which there is one shared
instance, and it is what the constructor of its class has just made. -/
theorem Chain.bean_frame {world : World} (h : Reachable family world) (member : family.Member)
    (depth : Nat) (name : String) :
    ∃ new, (Chain.bean depth member.chain name world).2.journal = new ++ world.journal ∧
      ∀ index,
        (world.state index).Framed ((Chain.bean depth member.chain name world).2.state index) ∧
        ((Chain.bean depth member.chain name world).2.state index).inCreation = .empty ∧
        ∀ bean value, (world.state index).singletons.find? bean = none →
          ((Chain.bean depth member.chain name world).2.state index).singletons.find? bean =
            some value →
          Shares family (Chain.bean depth member.chain name world).2 new index bean value := by
  have hadvances : world.Advances family (Chain.bean depth member.chain name world).2 :=
    (serve_advancing family depth).1 _ name member.chain_has world h.aliasesUndefined
  obtain ⟨new, hjournal, hfates⟩ := hadvances.fates
  refine ⟨new, hjournal, fun index => ⟨hadvances.framed index, ?_, fun bean value hnone hsome => ?_⟩⟩
  · rw [(hadvances.framed index).inCreation, h.idle]
  · cases hfates index bean with
    | unchanged hsame =>
      rw [hsame, hnone] at hsome
      cases hsome
    | made value' _ _ hkept _ hshares =>
      rw [hkept] at hsome
      cases hsome
      exact hshares

/-! ### A bean that fails halfway -/

/-- A container with a class of plain beans. -/
def plainRegistry : Registry where
  index := 0
  classes := ClassTable.register {} "P" { construct := Plan.constructor (.plain "P") [] }

/-- The bean `a` needs `b`, which is defined, and then `c`, which is not. -/
def halfwayOperations : List (Operation (Family.lone plainRegistry)) :=
  let member := Registry.lone plainRegistry
  [.register member (.definition "b" { className := some "P" }),
    .register member (.definition "a"
      { className := some "P"
        properties := [("x", .reference { name := some "b" }),
          ("y", .reference { name := some "c" })] })]

/-- Having `a` fails, and `b` is kept, as its constructor made it. -/
theorem bean_frame_halfway :
    (Chain.bean 2 (Registry.lone plainRegistry).chain "a" (World.after halfwayOperations)).1.isOk =
        false ∧
      ∃ new value, Shares (Family.lone plainRegistry)
        (Chain.bean 2 (Registry.lone plainRegistry).chain "a" (World.after halfwayOperations)).2 new 0
        "b" value := by
  obtain ⟨new, -, hframe⟩ :=
    Chain.bean_frame ⟨halfwayOperations, rfl⟩ (Registry.lone plainRegistry) 2 "a"
  have hsome : (((Chain.bean 2 (Registry.lone plainRegistry).chain "a"
      (World.after halfwayOperations)).2.state 0).singletons.find? "b").isSome = true := by
    decide +kernel
  obtain ⟨value, hvalue⟩ := Option.isSome_iff_exists.mp hsome
  exact ⟨by decide +kernel, new, value, (hframe 0).2.2 "b" value (by decide +kernel) hvalue⟩

end Injector
