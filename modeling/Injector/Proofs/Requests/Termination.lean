import Injector.Proofs.Dependence.Cycles
import Injector.Proofs.Merging.Composition
import Injector.Proofs.Placeholders.Expansion
import Injector.Proofs.Requests.EnoughDepth
import Mathlib.Order.Filter.AtTopBot.Basic
import Mathlib.Order.Filter.Finite

/-!
# Having a bean comes to an end

Having a bean asks for other beans, and these may ask for it again. In a chain of orderly containers
(`World.Orderly`) this ends nevertheless: there is a depth that suffices for every name
(`Chain.bean_ends`). It takes two guards, as neither bounds the recursion alone. From the inside out:

* A bean is created while it counts as being created. What its creation asks for is had with one bean
  less that is idle (`World.Busy`, `guarded_endsIn`).
* Nested beans are created without that guard, but each leads on to what is nested in it, and none of
  them back to itself (`nested_ends`).
* Between the creations, prerequisites ask for their prerequisites. Each of them is waited for by all
  beans that led to it (`World.Awaited`), and one that is waited for by a bean is refused by it (`had`).
* A container asks its ancestors, and they never ask it (`chain_ends`).

Each of these is an induction, on the idle beans, on what is nested, on the beans that do not wait, and on
the chain. What is proved by them holds from some depth on, whatever the world has become in the
meantime.
-/

namespace Injector

open Filter Relation

variable {family : Family} {base world : World} {registry : Registry} {ancestors : Chain}

/-! ## Orderly containers -/

/-- What a container and its ancestors hold gives no endless work apart from that of asking for beans. -/
structure World.Orderly (world : World) (registry : Registry) (ancestors : Chain) : Prop where
  /-- A prerequisite is given by a name that stands for itself and asks for no factory. -/
  prerequisites : ∀ definition, world.Occurs (registry :: ancestors) definition →
    ∀ name ∈ definition.dependsOn, asksForFactory name = false ∧
      (world.state registry.index).canonicalName name = name
  /-- No nested definition leads back to itself. -/
  nesting : ∀ inner, world.OccursNested (registry :: ancestors) inner →
    ¬ TransGen (world.Nests registry ancestors) inner inner
  /-- Every text has a value, or fails to have one. -/
  texts : ∀ definition, world.Occurs (registry :: ancestors) definition →
    ∀ text ∈ definition.texts, ∃ depth, registry.settings.evaluate depth text ≠ .error .tooDeep

/-- At a depth, every text that occurs in a container is evaluated. -/
def World.Evaluates (world : World) (registry : Registry) (ancestors : Chain) (depth : Nat) : Prop :=
  ∀ definition, world.Occurs (registry :: ancestors) definition →
    ∀ text ∈ definition.texts, registry.settings.evaluate depth text ≠ .error .tooDeep

theorem World.Orderly.evaluates (h : base.Orderly registry ancestors) :
    ∀ᶠ depth in atTop, base.Evaluates registry ancestors depth := by
  obtain ⟨all, hall⟩ := base.exists_occurring (registry :: ancestors)
  have hfinite : {text | ∃ definition, base.Occurs (registry :: ancestors) definition ∧
      text ∈ definition.texts}.Finite := by
    refine (List.finite_toSet (all.flatMap DefinitionOf.texts)).subset ?_
    rintro text ⟨definition, hoccurs, hmem⟩
    exact List.mem_flatMap_of_mem (hall definition hoccurs) hmem
  have heach := (eventually_all_finite (l := atTop) hfinite (p := fun text depth =>
    registry.settings.evaluate depth text ≠ .error .tooDeep)).mpr ?_
  · exact heach.mono fun depth hdepth definition hoccurs text hmem =>
      hdepth text ⟨definition, hoccurs, hmem⟩
  · rintro text ⟨definition, hoccurs, hmem⟩
    obtain ⟨enough, henough⟩ := h.texts definition hoccurs text hmem
    filter_upwards [eventually_ge_atTop enough] with depth hdepth
    rw [registry.settings.evaluate_settled hdepth text henough]
    exact henough

/-- What holds from some depth on for one level more, holds from some depth on. -/
theorem eventually_of_succ {P : Nat → Prop} (h : ∀ᶠ depth in atTop, P (depth + 1)) :
    ∀ᶠ depth in atTop, P depth := by
  rw [← map_add_atTop_eq_nat 1]
  exact h

/-! ## Creating nested beans -/

/-- At a depth, creating a nested bean by what it is completed to ends, under whatever name. -/
def World.NestedEnds (base : World) (registry : Registry) (ancestors : Chain) (Γ : World → Prop)
    (depth : Nat) (inner : String × Definition) : Prop :=
  ∀ given completed, completed.MadeOf (base.Draws registry ancestors inner.1 inner.2) →
    (serve depth (.creation (registry :: ancestors) given completed)).Ends Γ

section Creation

variable {Γ : World → Prop} (hΓ : World.Steady family base Γ) (hundefined : base.AliasesUndefined)
  (hf : family.Has (registry :: ancestors))

include hΓ hundefined hf

/-- Creating a bean ends if the beans that may be asked for can be had, its texts can be evaluated and
creating the beans nested in it ends. -/
theorem instantiate_endsIn {depth : Nat} {definition : Definition}
    (hbeans : ∀ part, part <:+ registry :: ancestors → ∀ name, (serve depth (.bean part name)).Ends Γ)
    (htexts : base.Evaluates registry ancestors depth)
    (hmade : definition.MadeOf (base.Occurs (registry :: ancestors)))
    (hnested : ∀ inner ∈ definition.nested, base.NestedEnds registry ancestors Γ depth inner)
    (name : String) (owner : Owner) (hworld : Γ world) :
    (instantiate (serve depth) depth registry ancestors name owner definition).EndsIn world := by
  have hK := (hΓ.housekeeping_ends hundefined).upTo hf
  have hgrants : (registry.provider ancestors (serve depth) depth).Grants fun _ work => work.Ends Γ :=
    hK.provider_grants (fun part name hpart => hbeans part hpart name) (List.suffix_refl _) depth
  have hinputs : (registry.resolution ancestors (serve depth) depth name owner
      definition).inputs.Ends Γ := by
    refine Resolution.inputs_mem hK.toComposable (hK.learn _) hgrants (fun text hmem => ?_)
      fun inner hinner path => ?_
    · obtain ⟨part, hoccurs, htext⟩ := hmade.texts text hmem
      exact hK.toComposable.ofStop_of_ne (htexts part hoccurs text htext)
    · -- the definition that is built is the nested one, completed from what it draws on
      refine Work.Ends.bind (hK.explain _ (hK.mergedNested (List.suffix_refl _) _ _ _))
        fun before completed after hbefore hrun => ?_
      obtain ⟨merged, hmerged, rfl, -⟩ := Work.takeMerged_eq_ok (Work.explain_eq_ok hrun)
      have hcompleted := (hΓ.keeping hbefore).toRestsOn.mergedNested_madeOf hf hmerged
      exact hK.explain _ (hK.bind (Resolution.build_mem hK.toComposable hgrants
        (hK.freeName inner.1) fun given => hnested inner hinner given _ hcompleted) fun _ => hK.pure _)
  rcases instantiate_cases (serve depth) depth registry ancestors name owner definition with
    ⟨failure, heq⟩ | ⟨className, constructor, reword, -, -, heq⟩
  · rw [heq]
    exact (hK.fail failure).endsIn world hworld
  · rw [heq]
    refine (hinputs.endsIn world hworld).bind fun inputs after _ => ?_
    exact (shallow_construct registry owner className constructor inputs after).explain reword

variable (hnesting : ∀ inner, base.OccursNested (registry :: ancestors) inner →
    ¬ TransGen (base.Nests registry ancestors) inner inner)
  (hbeans : ∀ᶠ depth in atTop, ∀ part, part <:+ registry :: ancestors →
    ∀ name, (serve depth (.bean part name)).Ends Γ)
  (htexts : ∀ᶠ depth in atTop, base.Evaluates registry ancestors depth)

include hnesting hbeans htexts

/-- From some depth on, creating a nested bean ends. -/
theorem nested_ends {inner : String × Definition}
    (h : base.OccursNested (registry :: ancestors) inner) :
    ∀ᶠ depth in atTop, base.NestedEnds registry ancestors Γ depth inner := by
  refine World.nests_induction
    (P := fun inner => ∀ᶠ depth in atTop, base.NestedEnds registry ancestors Γ depth inner) hnesting
    (fun outer houter ih => ?_) h
  have hfinite : {inner | base.Nests registry ancestors outer inner}.Finite :=
    (base.finite_occursNested (registry :: ancestors)).subset fun inner hnests =>
      hnests.occursNested houter
  have hinners := (eventually_all_finite hfinite).mpr ih
  refine eventually_of_succ ?_
  filter_upwards [hinners, hbeans, htexts] with depth hinners hbeans htexts given completed hmade
  refine ⟨fun world hworld => ?_, hΓ.serve_creation_keeps hundefined hf _ given completed⟩
  refine instantiate_endsIn hΓ hundefined hf hbeans htexts
    (hmade.mono fun part hdraws => hdraws.occurs houter.occurs) (fun inner hinner => ?_) given .nothing
    hworld
  obtain ⟨part, hdraws, hmem⟩ := hmade.nested inner hinner
  exact hinners inner ⟨part, hdraws, hmem⟩

/-- **From some depth on, creating a bean ends if the beans that it asks for can be had.** -/
theorem creation_ends :
    ∀ᶠ depth in atTop, ∀ (name : String) (owner : Owner) (definition : Definition),
      definition.MadeOf (base.Occurs (registry :: ancestors)) → ∀ world, Γ world →
        (instantiate (serve depth) depth registry ancestors name owner definition).EndsIn world := by
  have hinners := (eventually_all_finite (base.finite_occursNested (registry :: ancestors))).mpr
    fun inner hinner => nested_ends hΓ hundefined hf hnesting hbeans htexts hinner
  filter_upwards [hinners, hbeans, htexts] with depth hinners hbeans htexts name owner definition hmade
    world hworld
  refine instantiate_endsIn hΓ hundefined hf hbeans htexts hmade (fun inner hinner => ?_) name owner
    hworld
  exact hinners inner (hmade.nested inner hinner)

end Creation

/-! ## Beans that are being created -/

/-- All beans that a container defines are being created, but for the idle ones. -/
structure World.Busy (family : Family) (base : World) (index : Nat) (idle : Finset String)
    (world : World) : Prop extends Keeping family base world where
  creating : ∀ name, (base.state index).definitions.contains name = true → name ∉ idle →
    (world.state index).inCreation.contains name = true

namespace World

variable {index : Nat} {idle : Finset String} {name : String}

theorem steady_busy (family : Family) (base : World) (index : Nat) (idle : Finset String) :
    Steady family base (Busy family base index idle) where
  keeping h := h.toKeeping
  advance h hadvances hkeeping :=
    { toKeeping := hkeeping
      creating := fun name hdefined hbusy => by
        rw [(hadvances.framed index).inCreation]
        exact h.creating name hdefined hbusy }

/-- A bean whose creation begins is no longer idle. -/
theorem Busy.enter (h : Busy family base index idle world) (name : String) :
    Busy family base index (idle.erase name)
      (world.creating index ((world.state index).inCreation.insert name)) where
  toKeeping := h.toKeeping.withState ⟨rfl, rfl⟩ rfl
  creating other hdefined hbusy := by
    rw [state_creating, if_pos rfl, NameSet.contains_iff_mem_names, NameSet.mem_names_insert,
      ← NameSet.contains_iff_mem_names]
    by_cases he : other = name
    · exact Or.inl he
    · exact Or.inr (h.creating other hdefined fun hidle => hbusy (Finset.mem_erase.mpr ⟨he, hidle⟩))

end World

/-- What is done under guard is refused, or is done with one idle bean less. -/
theorem guarded_endsIn {idle : Finset String} {name : String} {work : Work Value}
    (hdefined : (base.state registry.index).definitions.contains name = true)
    (h : World.Busy family base registry.index idle world)
    (hwork : name ∈ idle → ∀ between, World.Busy family base registry.index (idle.erase name) between →
      work.EndsIn between) : (guarded registry name work).EndsIn world := by
  cases hcreating : (world.state registry.index).inCreation.contains name with
  | true => exact Work.endsIn_of_error (guarded_of_creating work hcreating)
  | false =>
    have hidle : name ∈ idle := by
      by_contra hbusy
      rw [h.creating name hdefined hbusy] at hcreating
      cases hcreating
    have hends := hwork hidle _ (h.enter name)
    unfold Work.EndsIn at hends ⊢
    rcases hrun : work (world.creating registry.index
      ((world.state registry.index).inCreation.insert name)) with ⟨result, after⟩
    rw [hrun] at hends
    rw [guarded_of_idle hcreating hrun]
    exact hends

/-- Having the instance of a bean ends if its creation under guard does. -/
theorem instanceOf_endsIn {handler : Handler} {depth : Nat} {name : String} {merged : Definition}
    (h : (guarded registry name (instantiate handler depth registry ancestors name
      (.merged registry.index name) merged)).EndsIn world) :
    (instanceOf handler depth registry ancestors name merged).EndsIn world := by
  unfold instanceOf
  split
  · unfold singletonOr
    refine Work.endsIn_state_bind ?_
    split
    · exact nofun
    · exact h.bind fun _ _ _ => nofun
  · exact h

/-! ## Beans that wait for prerequisites -/

/-- The links of a container lead from a name to all beans that it defines, but for those that are
free. -/
structure World.Awaited (family : Family) (base : World) (index : Nat) (idle : Finset String)
    (name : String) (free : Finset String) (world : World) : Prop extends
    Busy family base index idle world where
  waiting : ∀ other, (base.state index).definitions.contains other = true → other ∉ free →
    TransGen (State.Links (world.state index).dependents) name other

namespace World

variable {index : Nat} {idle free : Finset String} {name prerequisite : String}

theorem steady_awaited (family : Family) (base : World) (index : Nat) (idle : Finset String)
    (name : String) (free : Finset String) :
    Steady family base (Awaited family base index idle name free) where
  keeping h := h.toKeeping
  advance h hadvances hkeeping :=
    { toBusy := (steady_busy family base index idle).advance h.toBusy hadvances hkeeping
      waiting := fun other hdefined hwaits =>
        (hadvances.framed index).dependents.transGen (h.waiting other hdefined hwaits) }

/-- A prerequisite that does not depend on a bean yet is free. -/
theorem Awaited.mem_free (h : Awaited family base index idle name free world)
    (hname : (base.state index).canonicalName name = name)
    (hdefined : (base.state index).definitions.contains prerequisite = true)
    (hdependent : (world.state index).isDependent name prerequisite = false) :
    prerequisite ∈ free := by
  by_contra hwaits
  have hchain := h.waiting prerequisite hdefined hwaits
  rw [← hname, ← canonicalName_congr (h.sources index).2] at hchain
  rw [State.isDependent_iff.mpr hchain] at hdependent
  cases hdependent

/-- Once it is noted that a bean depends on its prerequisite, that one is waited for by the bean and all
that wait for it. -/
theorem Awaited.note (h : Awaited family base registry.index idle name free world)
    (hprerequisite : (base.state registry.index).canonicalName prerequisite = prerequisite)
    (hkeeping : Keeping family base (world.withState registry.index
      ((world.state registry.index).noteDependent prerequisite name))) :
    Awaited family base registry.index idle prerequisite (free.erase name)
      (world.withState registry.index
        ((world.state registry.index).noteDependent prerequisite name)) := by
  have hframed := State.Framed.noteDependent (world.state registry.index) prerequisite name
  have hlink := State.links_noteDependent (world.state registry.index) prerequisite name
  rw [canonicalName_congr (h.sources registry.index).2, hprerequisite] at hlink
  refine ⟨⟨hkeeping, fun other hdefined hbusy => ?_⟩, fun other hdefined hwaits => ?_⟩
  · rw [state_withState, if_pos rfl, hframed.inCreation]
    exact h.creating other hdefined hbusy
  · rw [state_withState, if_pos rfl]
    by_cases he : other = name
    · rw [he]
      exact .single hlink
    · have hother := h.waiting other hdefined fun hfree => hwaits (Finset.mem_erase.mpr ⟨he, hfree⟩)
      exact .head hlink (hframed.dependents.transGen hother)

end World

/-! ## Having one bean -/

/-- At a depth, the bean of a name can be created under guard while all beans are being created but the
idle ones. -/
def World.Creatable (family : Family) (base : World) (registry : Registry) (ancestors : Chain)
    (idle : Finset String) (depth : Nat) (name : String) : Prop :=
  ∀ definition, definition.MadeOf (base.Occurs (registry :: ancestors)) → ∀ world,
    Busy family base registry.index idle world →
    (guarded registry name (instantiate (serve depth) depth registry ancestors name
      (.merged registry.index name) definition)).EndsIn world

/-- At a depth, the beans with a property that a container defines can be had while all beans wait for
them but the free ones, and all are being created but the idle ones. -/
def World.Had (family : Family) (base : World) (registry : Registry) (ancestors : Chain)
    (idle free : Finset String) (P : String → Prop) (depth : Nat) : Prop :=
  ∀ written world,
    (base.state registry.index).definitions.contains (base.meant registry written) = true →
    P (base.meant registry written) →
    Awaited family base registry.index idle (base.meant registry written) free world →
    (serve depth (.bean (registry :: ancestors) written)).EndsIn world

/-- At a depth, the beans that a container does not define can be had. -/
def World.HadElsewhere (family : Family) (base : World) (registry : Registry) (ancestors : Chain)
    (depth : Nat) : Prop :=
  ∀ written world,
    (base.state registry.index).definitions.contains (base.meant registry written) = false →
    Keeping family base world → (serve depth (.bean (registry :: ancestors) written)).EndsIn world

section Bean

variable (hundefined : base.AliasesUndefined) (hf : family.Has (registry :: ancestors))
  {idle free : Finset String} {depth : Nat}

/-- Serving a request for a bean ends if having the bean does. -/
theorem serve_bean_endsIn {written : String}
    (h : (fetchBean (serve depth) depth registry ancestors written).EndsIn world) :
    (serve (depth + 1) (.bean (registry :: ancestors) written)).EndsIn world :=
  h.bind fun _ _ _ => Work.EndsIn.bind nofun fun _ _ _ => nofun

include hf

/-- Serving a request for a bean that is not defined ends if having the beans of the ancestors does. -/
theorem hadElsewhere_succ
    (habove : ∀ name, (serve depth (.bean ancestors name)).Ends (World.Keeping family base)) :
    base.HadElsewhere family registry ancestors (depth + 1) := by
  intro written world hnot h
  have hstate := h.sources registry.index
  unfold World.meant at hnot
  refine serve_bean_endsIn ?_
  unfold fetchBean
  refine Work.endsIn_state_bind ?_
  dsimp only
  rw [World.canonicalName_congr hstate.2, hstate.1, hnot, if_neg Bool.false_ne_true]
  split
  · exact (housekeeping_shallow family).exposed hf _ _ _ _ world
  · unfold fetchAbove
    split
    · exact nofun
    · exact (habove _).endsIn world h

/-- A merged definition is made of definitions that occur. -/
theorem mergedDefinition_madeOf {name : String} {after : World} {merged : Definition}
    (h : World.Keeping family base world)
    (hrun : mergedDefinition (registry :: ancestors) name world = (.ok merged, after)) :
    merged.MadeOf (base.Occurs (registry :: ancestors)) := by
  obtain ⟨found, hfound, rfl, -⟩ := Work.takeMerged_eq_ok hrun
  exact (h.toRestsOn.mergedIn_descends _ hf name found hfound).madeOf.mono fun _ hpart => hpart.occurs

include hundefined

/-- Having the prerequisites of a bean ends if those can be had that are free: the others are refused, as
all of them wait for the bean. -/
theorem realizePrerequisites_ends {name : String} {merged : Definition}
    (hdefined : (base.state registry.index).definitions.contains name = true)
    (hnames : ∀ prerequisite ∈ merged.dependsOn, asksForFactory prerequisite = false ∧
      (base.state registry.index).canonicalName prerequisite = prerequisite)
    (hhad : base.Had family registry ancestors idle (free.erase name) (· ∈ free) depth)
    (helsewhere : base.HadElsewhere family registry ancestors depth) :
    (realizePrerequisites (serve depth) registry ancestors name merged).Ends
      (World.Awaited family base registry.index idle name free) := by
  have hsteady := World.steady_awaited family base registry.index idle name free
  have hserve := ((World.container_keeping family base).serve_within depth).1
  rw [realizePrerequisites_eq]
  refine (Work.composable_ends _).forM fun prerequisite hmem => ⟨fun world h => ?_, ?_⟩
  · obtain ⟨hplain, hcanonical⟩ := hnames prerequisite hmem
    have hmeant : base.meant registry prerequisite = prerequisite := by
      unfold World.meant
      rw [plainName_of_plain hplain, hcanonical]
    unfold realizePrerequisite
    refine Work.endsIn_state_bind ?_
    split
    · exact nofun
    · next hdependent =>
      have hdependent := Bool.eq_false_iff.mpr hdependent
      have hkeeping :=
        (World.container_keeping family base).noteDependent hf prerequisite name world h.toKeeping
      refine Work.EndsIn.bind nofun fun _ noted hrun => ?_
      cases hrun
      refine (Work.EndsIn.discard ?_).explain _
      cases hprerequisite : (base.state registry.index).definitions.contains prerequisite with
      | false => exact helsewhere prerequisite _ (hmeant.symm ▸ hprerequisite) hkeeping
      | true =>
        have hfree := h.mem_free (hundefined.canonicalName hdefined) hprerequisite hdependent
        have hawaited := h.note hcanonical hkeeping
        refine hhad prerequisite _ ?_ ?_ ?_ <;> rw [hmeant]
        · exact hprerequisite
        · exact hfree
        · exact hawaited
  · exact hsteady.keeps hundefined
      ((housekeeping_advancing family).realizePrerequisite (serve_advancing family depth).1 hf name merged
        prerequisite)
      ((World.container_keeping family base).toHousekeeping.realizePrerequisite hserve hf name merged
        prerequisite)

/-- Having a bean that is defined in a container ends if having its prerequisites does, and creating it
under guard. -/
theorem fetchBean_endsIn (horderly : base.Orderly registry ancestors) {written name : String}
    (hname : base.meant registry written = name)
    (hdefined : (base.state registry.index).definitions.contains name = true)
    (hcreate : base.Creatable family registry ancestors idle depth name)
    (hhad : base.Had family registry ancestors idle (free.erase name) (· ∈ free) depth)
    (helsewhere : base.HadElsewhere family registry ancestors depth)
    (h : World.Awaited family base registry.index idle name free world) :
    (fetchBean (serve depth) depth registry ancestors written).EndsIn world := by
  have hK := (World.steady_awaited family base registry.index idle name free).housekeeping_ends
    hundefined
  have hstate := h.sources registry.index
  unfold World.meant at hname
  unfold fetchBean
  refine Work.endsIn_state_bind ?_
  dsimp only
  rw [World.canonicalName_congr hstate.2, hname, hstate.1, if_pos hdefined]
  split
  · exact (hK.exposed hf _ _ _ _).endsIn world h
  · refine ((hK.merged hf name).endsIn world h).bind fun merged first hmerged => ?_
    have hfirst := (hK.merged hf name).keeps.run hmerged h
    have hmade := mergedDefinition_madeOf hf h.toKeeping hmerged
    have hrealize := realizePrerequisites_ends hundefined hf hdefined (fun prerequisite hmem => by
      obtain ⟨part, hoccurs, hpart⟩ := hmade.prerequisites prerequisite hmem
      exact horderly.prerequisites part hoccurs prerequisite hpart) hhad helsewhere
    refine (hrealize.endsIn first hfirst).bind fun _ second hrealized => ?_
    have hsecond := hrealize.keeps.run hrealized hfirst
    refine (instanceOf_endsIn (hcreate merged hmade second hsecond.toBusy)).bind fun made third _ => ?_
    exact (housekeeping_shallow family).exposed hf _ _ _ _ third

end Bean

/-! ## Having any bean -/

section Levels

variable (hundefined : base.AliasesUndefined) (hf : family.Has (registry :: ancestors))
  (horderly : base.Orderly registry ancestors)

section Awaited

variable {idle : Finset String}
  (helsewhere : ∀ᶠ depth in atTop, base.HadElsewhere family registry ancestors depth)
  (hcreate : ∀ᶠ depth in atTop, ∀ name,
    (base.state registry.index).definitions.contains name = true →
    base.Creatable family registry ancestors idle depth name)

include hundefined hf horderly helsewhere hcreate

/-- Beans with a property can be had if those free ones can be had that wait for one of them. -/
theorem had_of_free {free : Finset String} {P : String → Prop}
    (hnext : ∀ᶠ depth in atTop, ∀ name, P name →
      base.Had family registry ancestors idle (free.erase name) (· ∈ free) depth) :
    ∀ᶠ depth in atTop, base.Had family registry ancestors idle free P depth := by
  refine eventually_of_succ ?_
  filter_upwards [hnext, hcreate, helsewhere] with depth hnext hcreate helsewhere written world hdefined
    hP h
  exact serve_bean_endsIn (fetchBean_endsIn hundefined hf horderly rfl hdefined (hcreate _ hdefined)
    (hnext _ hP) helsewhere h)

/-- **From some depth on, the beans that a container defines can be had.** A prerequisite is free, as it
would be refused else. A bean that is free itself leaves one free bean less to its prerequisites; and if
it is not, its prerequisites are. -/
theorem had (free : Finset String) :
    ∀ᶠ depth in atTop, base.Had family registry ancestors idle free (fun _ => True) depth := by
  induction free using Finset.strongInduction with
  | H free ih =>
    have hfree : ∀ᶠ depth in atTop, base.Had family registry ancestors idle free (· ∈ free) depth := by
      refine had_of_free hundefined hf horderly helsewhere hcreate ?_
      have hsmaller := (eventually_all_finset free).mpr fun name hname =>
        ih (free.erase name) (Finset.erase_ssubset hname)
      filter_upwards [hsmaller] with depth hsmaller name hname written world hdefined _
      exact hsmaller name hname written world hdefined trivial
    have hwaiting : ∀ᶠ depth in atTop,
        base.Had family registry ancestors idle free (fun name => name ∉ free) depth := by
      refine had_of_free hundefined hf horderly helsewhere hcreate ?_
      filter_upwards [hfree] with depth hfree name hname
      rw [Finset.erase_eq_of_notMem hname]
      exact hfree
    filter_upwards [hfree, hwaiting] with depth hfree hwaiting written world hdefined _
    by_cases hmem : base.meant registry written ∈ free
    · exact hfree written world hdefined hmem
    · exact hwaiting written world hdefined hmem

end Awaited

variable (hparts : ∀ᶠ depth in atTop, ∀ part, part <:+ ancestors → ∀ name,
  (serve depth (.bean part name)).Ends (World.Keeping family base))

include hundefined hf horderly hparts

/-- What can be had while one idle bean less is left, can be created under guard. -/
theorem creatable {idle : Finset String}
    (hfewer : ∀ name ∈ idle, ∀ᶠ depth in atTop, ∀ written,
      (serve depth (.bean (registry :: ancestors) written)).Ends
        (World.Busy family base registry.index (idle.erase name))) :
    ∀ᶠ depth in atTop, ∀ name, (base.state registry.index).definitions.contains name = true →
      base.Creatable family registry ancestors idle depth name := by
  have heach : ∀ name ∈ idle, ∀ᶠ depth in atTop, ∀ owner definition,
      definition.MadeOf (base.Occurs (registry :: ancestors)) → ∀ world,
      World.Busy family base registry.index (idle.erase name) world →
      (instantiate (serve depth) depth registry ancestors name owner definition).EndsIn world := by
    intro name hname
    have hsteady := World.steady_busy family base registry.index (idle.erase name)
    have hbeans : ∀ᶠ depth in atTop, ∀ part, part <:+ registry :: ancestors → ∀ written,
        (serve depth (.bean part written)).Ends
          (World.Busy family base registry.index (idle.erase name)) := by
      filter_upwards [hfewer name hname, hparts] with depth hfewer hparts part hpart written
      rcases List.suffix_cons_iff.mp hpart with rfl | hrest
      · exact hfewer written
      · exact ⟨fun world h => (hparts part hrest written).endsIn world h.toKeeping,
          hsteady.serve_keeps hundefined (family.has_of_suffix hf hpart) depth written⟩
    exact (creation_ends hsteady hundefined hf horderly.nesting hbeans horderly.evaluates).mono
      fun depth hcreation => hcreation name
  filter_upwards [(eventually_all_finset idle).mpr heach] with depth heach name hdefined definition hmade
    world h
  exact guarded_endsIn hdefined h fun hmem between => heach name hmem _ definition hmade between

/-- **From some depth on, beans can be had in a container in which all beans are being created but the
idle ones.** -/
theorem busy_ends (idle : Finset String) :
    ∀ᶠ depth in atTop, ∀ written,
      (serve depth (.bean (registry :: ancestors) written)).Ends
        (World.Busy family base registry.index idle) := by
  induction idle using Finset.strongInduction with
  | H idle ih =>
    have hcreate := creatable hundefined hf horderly hparts fun name hname =>
      ih (idle.erase name) (Finset.erase_ssubset hname)
    have helsewhere : ∀ᶠ depth in atTop, base.HadElsewhere family registry ancestors depth :=
      eventually_of_succ (hparts.mono fun depth h =>
        hadElsewhere_succ hf (h ancestors (List.suffix_refl _)))
    filter_upwards [helsewhere, had hundefined hf horderly helsewhere hcreate
      (base.state registry.index).definitions.keys.toFinset] with depth helsewhere hhad written
    refine ⟨fun world h => ?_, (World.steady_busy family base registry.index idle).serve_keeps hundefined
      hf depth written⟩
    cases hdefined : (base.state registry.index).definitions.contains
        (base.meant registry written) with
    | false => exact helsewhere written world hdefined h.toKeeping
    | true =>
      -- no bean has to wait for this one, as all of them may be free
      refine hhad written world hdefined trivial ⟨h, fun other hother hwaits => ?_⟩
      exact absurd (List.mem_toFinset.mpr ((Table.contains_iff_mem_keys _ _).mp hother)) hwaits

end Levels

/-- **From some depth on, beans can be had in all containers of a chain.** -/
theorem chain_ends (hundefined : base.AliasesUndefined) :
    ∀ chain : Chain, family.Has chain →
      (∀ registry ancestors, registry :: ancestors <:+ chain → base.Orderly registry ancestors) →
      ∀ᶠ depth in atTop, ∀ part, part <:+ chain → ∀ name,
        (serve depth (.bean part name)).Ends (World.Keeping family base)
  | [], _, _ => by
    refine eventually_of_succ (Eventually.of_forall fun depth part hpart name => ?_)
    rw [List.suffix_nil.mp hpart]
    exact (Work.composable_ends _).fail _
  | registry :: ancestors, hf, horderly => by
    have hparts := chain_ends hundefined ancestors (family.ancestors_has hf)
      fun registry' ancestors' hpart => horderly registry' ancestors'
        (hpart.trans (List.suffix_cons _ _))
    have hbusy := busy_ends hundefined hf (horderly registry ancestors (List.suffix_refl _)) hparts
      (base.state registry.index).definitions.keys.toFinset
    filter_upwards [hbusy, hparts] with depth hbusy hparts part hpart name
    rcases List.suffix_cons_iff.mp hpart with rfl | hrest
    · -- no bean has to be created for that, as all of them may be idle
      refine ⟨fun world h => (hbusy name).endsIn world ⟨h, fun other hother hbusy => ?_⟩,
        World.Steady.serve_keeps ⟨id, fun _ _ h => h⟩ hundefined hf depth name⟩
      exact absurd (List.mem_toFinset.mpr ((Table.contains_iff_mem_keys _ _).mp hother)) hbusy
    · exact hparts part hrest name

/-- **Having a bean comes to an end, however beans ask for each other.** In a chain of orderly containers
there is a depth that suffices for all names. Wherever having a bean anew would close a cycle, it is
refused. -/
theorem Chain.bean_ends {world : World} (h : Reachable family world) (member : family.Member)
    (horderly : ∀ registry ancestors, registry :: ancestors <:+ member.chain →
      world.Orderly registry ancestors) :
    (∃ enough, ∀ depth ≥ enough, ∀ name,
      (Chain.bean depth member.chain name world).1 ≠ .error .tooDeep) ∧
    ∀ (between : World) (depth : Nat) (name : String), between.AliasesUndefined →
      (between.state member.registry.index).definitions.contains
        (between.meant member.registry name) = true →
      (between.state member.registry.index).singletons.find?
        (between.meant member.registry name) = none →
      between.ClosesCycle member.registry member.ancestors (between.meant member.registry name) →
      ∀ value, (Chain.bean depth member.chain name between).1 ≠ .ok value := by
  refine ⟨?_, fun between depth name hundefined hdefined hnone hcloses =>
    Chain.bean_refused hundefined member depth name hdefined hnone hcloses⟩
  obtain ⟨enough, henough⟩ := eventually_atTop.mp
    (chain_ends h.aliasesUndefined member.chain member.chain_has horderly)
  exact ⟨enough, fun depth hdepth name =>
    (henough depth hdepth member.chain (List.suffix_refl _) name).endsIn world (.refl family world)⟩

/-! ### Beans that ask for each other in every way -/

/-- A nested bean that needs `a` before it and refers to the bean around it. -/
def tangledInner : Definition where
  className := some "P"
  dependsOn := ["a"]
  properties := [("y", .reference { name := some "b" })]

/-- The definition of `b`. -/
def tangledOuter : Definition where
  className := some "P"
  properties := [("x", .inner "i" tangledInner)]

/-- The definition of `a`, which needs `b` before it. -/
def tangledFirst : Definition where
  className := some "P"
  dependsOn := ["b"]

/-- The world in which both are registered. -/
def tangledOperations : List (Operation (Family.lone plainRegistry)) :=
  let member := Registry.lone plainRegistry
  [.register member (.definition "a" tangledFirst), .register member (.definition "b" tangledOuter)]

theorem tangled_occurs {definition : Definition}
    (h : (World.after tangledOperations).Occurs [plainRegistry] definition) :
    definition = tangledFirst ∨ definition = tangledOuter ∨ definition = tangledInner := by
  have hheld : (World.after tangledOperations).heldBy plainRegistry = [tangledFirst, tangledOuter] :=
    rfl
  have hmem : definition ∈ [tangledFirst, tangledOuter, tangledInner] := h.mem_of_closed ?_ ?_
  · simpa using hmem
  · intro registry hregistry
    rw [List.mem_singleton.mp hregistry, hheld]
    exact List.cons_subset_cons _ (List.cons_subset_cons _ (List.nil_subset _))
  · intro outer houter inner hinner
    simp only [List.mem_cons, List.not_mem_nil, or_false] at houter
    rcases houter with rfl | rfl | rfl
    · cases hinner
    · rw [List.mem_singleton.mp hinner]
      exact List.mem_cons_of_mem _ (List.mem_cons_of_mem _ (List.mem_singleton_self _))
    · cases hinner

theorem orderly_tangled : (World.after tangledOperations).Orderly plainRegistry [] where
  prerequisites definition hoccurs name hmem := by
    rcases tangled_occurs hoccurs with rfl | rfl | rfl
    · rw [List.mem_singleton.mp hmem]
      exact ⟨by decide +kernel, by decide +kernel⟩
    · cases hmem
    · rw [List.mem_singleton.mp hmem]
      exact ⟨by decide +kernel, by decide +kernel⟩
  nesting := by
    rintro inner ⟨outer, houter, hmem⟩ hcycle
    have hinner : inner.2 = tangledInner := by
      rcases tangled_occurs houter with rfl | rfl | rfl
      · cases hmem
      · rw [List.mem_singleton.mp hmem]
      · cases hmem
    obtain ⟨_, ⟨part, rfl | ⟨parentName, hparent, -⟩, hnested⟩, -⟩ := TransGen.head'_iff.mp hcycle
    · rw [hinner] at hnested
      cases hnested
    · rw [hinner] at hparent
      cases hparent
  texts definition hoccurs text hmem := by
    rcases tangled_occurs hoccurs with rfl | rfl | rfl
    · cases hmem
    · cases hmem
    · rw [List.mem_singleton.mp hmem]
      have hvalue : plainRegistry.settings.evaluate 0 "b" = .ok (.text "b") := rfl
      exact ⟨0, by rw [hvalue]; exact nofun⟩

/-- Asking for any bean ends, and `b` is refused while it is being created. -/
theorem bean_ends_tangled :
    (∃ enough, ∀ depth ≥ enough, ∀ name, (Chain.bean depth (Registry.lone plainRegistry).chain name
      (World.after tangledOperations)).1 ≠ .error .tooDeep) ∧
    ∀ depth value, (Chain.bean depth (Registry.lone plainRegistry).chain "b"
      ((World.after tangledOperations).creating 0 (NameSet.empty.insert "b"))).1 ≠ .ok value := by
  have hreachable : Reachable (Family.lone plainRegistry) (World.after tangledOperations) :=
    ⟨tangledOperations, rfl⟩
  obtain ⟨hends, hrefused⟩ := Chain.bean_ends hreachable (Registry.lone plainRegistry)
    fun registry ancestors hpart => by
      rcases List.suffix_cons_iff.mp hpart with heq | hnil
      · cases heq
        exact orderly_tangled
      · cases List.suffix_nil.mp hnil
  refine ⟨hends, fun depth value => hrefused _ depth "b" ?_ ?_ ?_ (.creation ?_) value⟩
  · refine hreachable.aliasesUndefined.of_sameSources fun other => ?_
    rw [World.state_creating]
    exact ⟨rfl, rfl⟩
  · decide +kernel
  · rfl
  · decide +kernel

end Injector
