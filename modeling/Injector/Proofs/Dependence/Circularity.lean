import Injector.Proofs.Dependence.Reasons

/-!
# What a refusal for circularity rests on

A bean is refused for circularity if links lead from it to one of its prerequisites
(`State.isDependent_iff`). Links are noted for reasons, but they are never taken back: not when a
definition is replaced or taken out, and not when the bean that they were noted for could not be made. So
a link may be stale (`World.Stale`): what is defined by now gives no reason for it.

A refusal rests on a real chain of dependence, or on a stale link (`circular_refusals`). That there are
refusals of the second kind, where nothing depends on itself in any way, is shown by
`not_cyclic_of_refused`.
-/

namespace Injector

open Relation

variable {family : Family}

/-! ## Stale links -/

/-- The link was noted, and what is defined gives no reason for it. -/
def World.Stale (family : Family) (start after : World) (index : Nat) (name dependent : String) : Prop :=
  State.Links (start.state index).dependents name dependent ∧
    ¬ start.Asks family after index name dependent

/-- **A chain of links is a real chain of dependence, or there is a stale link.** -/
theorem Linked.asked_or_stale {start world : World} (h : Linked family start world) {index : Nat}
    {name goal : String}
    (hchain : TransGen (State.Links (world.state index).dependents) name goal) :
    TransGen (start.Asks family world index) name goal ∨
      ∃ first second, ReflTransGen (State.Links (world.state index).dependents) name first ∧
        start.Stale family world index first second ∧
        ReflTransGen (State.Links (world.state index).dependents) second goal := by
  have hlink {first second : String}
      (hlink : State.Links (world.state index).dependents first second) :
      start.Asks family world index first second ∨ start.Stale family world index first second := by
    by_cases hasks : start.Asks family world index first second
    · exact .inl hasks
    · exact .inr ⟨(h.links index first second hlink).resolve_right hasks, hasks⟩
  induction hchain with
  | single hlast =>
    rcases hlink hlast with hasks | hstale
    · exact .inl (.single hasks)
    · exact .inr ⟨_, _, .refl, hstale, .refl⟩
  | tail hbefore hlast ih =>
    rcases ih with hasked | ⟨first, second, hfirst, hstale, hrest⟩
    · rcases hlink hlast with hasks | hstale
      · exact .inl (hasked.tail hasks)
      · exact .inr ⟨_, _, hbefore.to_reflTransGen, hstale, .refl⟩
    · exact .inr ⟨first, second, hfirst, hstale, hrest.tail hlast⟩

/-! ## Refusals -/

/-- That the bean of a name is refused, since one of its prerequisites depends on it. -/
def refusal (merged : Definition) (name prerequisite : String) : Failure :=
  .creation merged.resource (some name) (.circularDependsOn name prerequisite) none

/-- **Whoever is refused for circularity has a prerequisite to which links lead from him.** -/
theorem realizePrerequisites_eq_refusal {depth : Nat} {registry : Registry} {ancestors : Chain}
    {name prerequisite : String} {merged : Definition} {world after : World}
    (h : realizePrerequisites (serve depth) registry ancestors name merged world =
      (.error (.failure (refusal merged name prerequisite)), after)) :
    prerequisite ∈ merged.dependsOn ∧
      TransGen (State.Links (after.state registry.index).dependents)
        ((after.state registry.index).canonicalName name) prerequisite := by
  rw [realizePrerequisites_eq] at h
  obtain ⟨done, asked, rest, between, hsplit, -, hasked⟩ := Work.forM_eq_error h
  unfold realizePrerequisite at hasked
  rw [Work.state_bind_apply] at hasked
  split at hasked
  · next hdependent =>
    cases hasked
    refine ⟨?_, State.isDependent_iff.mp hdependent⟩
    rw [hsplit]
    exact List.mem_append_right _ List.mem_cons_self
  · -- a prerequisite that fails is told of in other words
    obtain ⟨⟨⟩, noted, hnoted⟩ : ∃ result noted, registry.noteDependent asked name between =
        (.ok result, noted) := ⟨_, _, rfl⟩
    rw [Work.bind_apply_ok hnoted] at hasked
    unfold Work.explain at hasked
    rcases hrun : discard (serve depth (.bean (registry :: ancestors) asked)) noted with
      ⟨(failure | _) | value, final⟩ <;> rw [hrun] at hasked <;> cases hasked

/-- **A refusal for circularity rests on a real chain of dependence, or on a stale link.** Whatever was
done with the containers of a family before, and whatever is asked next: links are noted only for reasons
that the definitions give. So if a bean is refused on the way, then its prerequisite really depends on it,
by what is defined, over each step of a chain; or one of the links that lead there is stale. A link that
was there before was noted by an operation, for a reason that the definitions gave then, or by hand. -/
theorem circular_refusals (operations : List (Operation family)) :
    (∀ (member : family.Member) (depth : Nat) (inquiry : Inquiry), inquiry.notesForReasons = true →
      Linked family (World.after operations)
        (inquiry.answer depth member.registry member.ancestors (World.after operations)).2) ∧
    (∀ (creation : Creation family) (depth : Nat) (prerequisite : String) (world after : World),
      creation.Planned (World.after operations) →
      creation.owner = .merged creation.member.registry.index creation.name →
      Linked family (World.after operations) world →
      realizePrerequisites (serve depth) creation.member.registry creation.member.ancestors creation.name
          creation.definition world =
        (.error (.failure (refusal creation.definition creation.name prerequisite)), after) →
      prerequisite ∈ creation.definition.dependsOn ∧
      (TransGen ((World.after operations).Asks family after creation.member.registry.index)
          creation.name prerequisite ∨
        ∃ first second,
          ReflTransGen (State.Links (after.state creation.member.registry.index).dependents)
            creation.name first ∧
          (World.after operations).Stale family after creation.member.registry.index first second ∧
          ReflTransGen (State.Links (after.state creation.member.registry.index).dependents)
            second prerequisite)) ∧
    ∀ index name dependent,
      State.Links ((World.after operations).state index).dependents name dependent →
      ∃ done operation, done ++ [operation] <+: operations ∧
        operation.NotesLink (World.after done) index name dependent := by
  have hreachable : Reachable family (World.after operations) := ⟨operations, rfl⟩
  refine ⟨fun member depth inquiry hreasons => ?_, ?_, fun index _ _ => World.links_after index operations⟩
  · exact inquiry.linked member depth hreasons _ (.refl family _)
  intro creation depth prerequisite world after hplanned howner hlinked hrefused
  cases hplanned with
  | nested => cases howner
  | @bean member name definition hdefined hmerged =>
    -- the chain that was found consists of links as they are now, of which each has its reason
    have hafter := (linked_realizePrerequisites (linking family _ depth) (.bean hdefined hmerged)).run
      hrefused hlinked
    obtain ⟨hmem, hchain⟩ := realizePrerequisites_eq_refusal hrefused
    have hcanonical : (after.state member.registry.index).canonicalName name = name := by
      rw [(hafter.grows.1 _).canonicalName]
      exact hreachable.aliasesUndefined.canonicalName hdefined
    rw [hcanonical] at hchain
    exact ⟨hmem, hafter.asked_or_stale hchain⟩

/-! ### A bean that is refused for what it was before -/

/-- The bean `a` needs `b`, which is not defined, so that it cannot be had. Then it is defined anew and
needs nothing, and `b` is defined to need it. -/
def abandonedOperations : List (Operation (Family.lone plainRegistry)) :=
  let member := Registry.lone plainRegistry
  [.register member (.definition "a" { className := some "P", dependsOn := ["b"] }),
    .inquire member 3 (.bean "a"),
    .register member (.definition "a" { className := some "P" }),
    .register member (.definition "b" { className := some "P", dependsOn := ["a"] })]

/-- The only container of its family has no ancestors. -/
theorem Registry.eq_lone {registry : Registry} (member : (Family.lone registry).Member) :
    member = registry.lone := by
  obtain ⟨other, ancestors, has⟩ := member
  rcases List.suffix_cons_iff.mp has with heq | hnone
  · cases heq
    rfl
  · exact absurd (List.suffix_nil.mp hnone) (List.cons_ne_nil _ _)

/-- What is created in the end has no arguments and no properties, and only `b` needs something, which is
`a`. -/
theorem planned_abandoned {creation : Creation (Family.lone plainRegistry)}
    (h : creation.Planned (World.after abandonedOperations)) :
    creation.definition.leaves = [] ∧
      ∀ name ∈ creation.definition.dependsOn, creation.name = "b" ∧ name = "a" := by
  induction h with
  | @bean member name definition hdefined hmerged =>
    obtain rfl := Registry.eq_lone member
    have hsummary : ∀ other ∈ ((World.after abandonedOperations).state 0).definitions.keys,
        ((World.bareOf ((World.after abandonedOperations).mergedIn plainRegistry.lone.chain other)).map
          fun bare => (bare.arguments.length, bare.properties.length, bare.dependsOn)) =
            some (0, 0, if other = "b" then ["a"] else []) := by
      decide +kernel
    have hof := hsummary name ((Table.contains_iff_mem_keys _ _).mp hdefined)
    rw [hmerged] at hof
    obtain ⟨harguments, hrest⟩ := Prod.mk.inj (Option.some.inj hof)
    obtain ⟨hproperties, hdependsOn⟩ := Prod.mk.inj hrest
    refine ⟨?_, fun other hother => ?_⟩
    · unfold DefinitionOf.bare at harguments hproperties
      rw [List.length_map, List.length_eq_zero_iff] at harguments hproperties
      unfold DefinitionOf.leaves DefinitionOf.raws
      rw [harguments, hproperties]
      rfl
    · have hmem : other ∈ definition.bare.dependsOn := hother
      rw [hdependsOn] at hmem
      split at hmem
      · next hname => exact ⟨hname, List.mem_singleton.mp hmem⟩
      · cases hmem
  | nested _ hinner _ _ ih =>
    obtain ⟨leaf, hleaf, -⟩ := DefinitionOf.mem_nested_iff.mp hinner
    rw [ih.1] at hleaf
    cases hleaf

/-- What is defined in the end asks for nothing but that `b` depends on `a`. -/
theorem asks_abandoned {after : World} {name dependent : String}
    (h : (World.after abandonedOperations).Asks (Family.lone plainRegistry) after 0 name dependent) :
    name = "a" ∧ dependent = "b" := by
  obtain ⟨creation, hplanned, -, rfl, asked, hasks, rfl⟩ := h
  obtain ⟨hleaves, hdependsOn⟩ := planned_abandoned hplanned
  cases hasks with
  | prerequisite hmem =>
    obtain ⟨hname, rfl⟩ := hdependsOn _ hmem
    exact ⟨by decide +kernel, hname⟩
  | reference hleaf =>
    rw [hleaves] at hleaf
    cases hleaf
  | dependency hleaf =>
    rw [hleaves] at hleaf
    cases hleaf
  | nested hnests =>
    obtain ⟨inner, hinner, -⟩ := hnests
    obtain ⟨leaf, hleaf, -⟩ := DefinitionOf.mem_nested_iff.mp hinner
    rw [hleaves] at hleaf
    cases hleaf

/-- **The bean `b` is refused for circularity, and nothing depends on itself.** -/
theorem not_cyclic_of_refused :
    (∃ failure, (Chain.bean 3 plainRegistry.lone.chain "b" (World.after abandonedOperations)).1 =
        .error (.failure failure) ∧
      failure.message = "Error creating bean with name 'b': " ++
        "Circular depends-on relationship between 'b' and 'a'") ∧
      ∀ after name, ¬ TransGen
        ((World.after abandonedOperations).Asks (Family.lone plainRegistry) after 0) name name := by
  refine ⟨?_, fun after name hcycle => ?_⟩
  · have hmessage : (Work.failure? (Chain.bean 3 plainRegistry.lone.chain "b"
        (World.after abandonedOperations)).1).map Failure.message =
          some ("Error creating bean with name 'b': " ++
            "Circular depends-on relationship between 'b' and 'a'") := by decide +kernel
    obtain ⟨failure, hfailure, hmessage⟩ := Option.map_eq_some_iff.mp hmessage
    exact ⟨failure, Work.failure?_eq_some.mp hfailure, hmessage⟩
  · -- each step leads from `a` to `b`, so there is no step behind another one
    obtain ⟨_, hfirst, -⟩ := TransGen.head'_iff.mp hcycle
    obtain ⟨_, -, hlast⟩ := TransGen.tail'_iff.mp hcycle
    have ha := (asks_abandoned hfirst).1
    have hb := (asks_abandoned hlast).2
    rw [ha] at hb
    exact absurd hb (by decide)

/-- What is left of the time when `a` needed `b` is a stale link, and that is why `b` is refused. -/
theorem circular_refusals_abandoned :
    ∃ merged after,
      realizePrerequisites (serve 2) plainRegistry [] "b" merged (World.after abandonedOperations) =
        (.error (.failure (refusal merged "b" "a")), after) ∧
      ∃ first second,
        ReflTransGen (State.Links (after.state 0).dependents) "b" first ∧
        (World.after abandonedOperations).Stale (Family.lone plainRegistry) after 0 first second ∧
        ReflTransGen (State.Links (after.state 0).dependents) second "a" := by
  have hsome : ((World.after abandonedOperations).mergedIn plainRegistry.lone.chain "b").toOption.map
      (fun merged => merged.definition.dependsOn) = some ["a"] := by decide +kernel
  have hdependent : ((World.after abandonedOperations).state 0).isDependent "b" "a" = true := by
    decide +kernel
  cases hmerged : (World.after abandonedOperations).mergedIn plainRegistry.lone.chain "b" with
  | error failure =>
    rw [hmerged] at hsome
    cases hsome
  | ok merged =>
    rw [hmerged] at hsome
    have hdependsOn : merged.definition.dependsOn = ["a"] := Option.some.inj hsome
    have hrefused : realizePrerequisites (serve 2) plainRegistry [] "b" merged.definition
        (World.after abandonedOperations) =
          (.error (.failure (refusal merged.definition "b" "a")), World.after abandonedOperations) := by
      rw [realizePrerequisites_eq, hdependsOn]
      refine Work.bind_apply_error ?_
      unfold realizePrerequisite
      rw [Work.state_bind_apply]
      exact congrFun (if_pos hdependent) _
    refine ⟨merged.definition, _, hrefused, ?_⟩
    have hgrounds := (circular_refusals abandonedOperations).2.1
      ⟨plainRegistry.lone, "b", .merged 0 "b", merged.definition⟩ 2 "a" _ _
      (.bean (by decide +kernel) (congrArg World.bareOf hmerged)) rfl (.refl _ _) hrefused
    refine hgrounds.2.resolve_left fun hchain => ?_
    obtain ⟨_, hfirst, -⟩ := TransGen.head'_iff.mp hchain
    exact absurd (asks_abandoned hfirst).1 (show "b" ≠ "a" by decide)

end Injector
