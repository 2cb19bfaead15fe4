import Injector.Proofs.Autowiring.Selection
import Injector.Proofs.Values.Gathering

/-!
# What is injected for a dependency

The beans that are injected are settled before any of them is had. The nearest container of the chain
that has candidates supplies them (`World.Supplies`), and so it is one equation for every way of having
beans (`autowire_settled`). For a list or a map all of its candidates are had, one after the other
(`World.HadInTurn`); for a single place one of them is meant (`State.Means`).

So the names that are reported are those of the beans that were had, each in the place of its bean, and
it is a failure that there is no single bean exactly if none of several candidates is meant
(`Chain.injection_reports`).
-/

namespace Injector

variable {family : Family}

/-! ## Which container supplies -/

namespace World

variable (world : World) (dependency : Dependency) (requester : String)

/-- The candidates of a container for a dependency of a bean: its beans of the type, but not the bean
itself, and only the qualified one if there is a qualifier. -/
def candidates (registry : Registry) (ancestors : Chain) : List String :=
  let others :=
    (world.namesOfType registry ancestors dependency.type).filter fun name => name != requester
  match dependency.qualifier with
  | none => others
  | some qualifier =>
    let qualified := (world.state registry.index).canonicalName qualifier
    others.filter fun name => name == qualified

/-- The nearest container of a chain that has candidates. -/
inductive Supplies : Chain → Registry → Chain → Prop
  | here {registry : Registry} {ancestors : Chain}
      (h : world.candidates dependency requester registry ancestors ≠ []) :
      Supplies (registry :: ancestors) registry ancestors
  | above {first registry : Registry} {rest ancestors : Chain}
      (hnone : world.candidates dependency requester first rest = [])
      (h : Supplies rest registry ancestors) : Supplies (first :: rest) registry ancestors

/-- No container of a chain has candidates. -/
def NoneSupplies (chain : Chain) : Prop :=
  ∀ registry ancestors, registry :: ancestors <:+ chain →
    world.candidates dependency requester registry ancestors = []

variable {world dependency requester} {chain ancestors : Chain} {registry : Registry}

theorem nodup_candidates : (world.candidates dependency requester registry ancestors).Nodup := by
  unfold candidates
  have hothers := (world.nodup_namesOfType registry ancestors dependency.type).filter
    fun name => name != requester
  dsimp only
  split
  · exact hothers
  · exact hothers.filter _

theorem Supplies.suffix (h : world.Supplies dependency requester chain registry ancestors) :
    registry :: ancestors <:+ chain := by
  induction h with
  | here => exact List.suffix_refl _
  | above _ _ ih => exact ih.trans (List.suffix_cons _ _)

theorem Supplies.nonempty (h : world.Supplies dependency requester chain registry ancestors) :
    world.candidates dependency requester registry ancestors ≠ [] := by
  induction h with
  | here hsome => exact hsome
  | above _ _ ih => exact ih

/-- Only one container supplies. -/
theorem Supplies.unique {other : Registry} {others : Chain}
    (h : world.Supplies dependency requester chain registry ancestors)
    (h' : world.Supplies dependency requester chain other others) :
    registry = other ∧ ancestors = others := by
  induction h with
  | here hsome =>
    cases h' with
    | here => exact ⟨rfl, rfl⟩
    | above hnone => exact absurd hnone hsome
  | above hnone _ ih =>
    cases h' with
    | here hsome => exact absurd hnone hsome
    | above _ hrest => exact ih hrest

end World

/-- **Looking for candidates finds those that the base says**, and does nothing else. -/
theorem candidatesFor_eq {base world : World} {registry : Registry} {ancestors : Chain}
    (hf : family.Has (registry :: ancestors)) (h : base.Unmoved family world) (dependency : Dependency)
    (requester : String) :
    ∃ after, candidatesFor registry ancestors dependency requester world =
        (.ok (base.candidates dependency requester registry ancestors), after) ∧
      base.Unmoved family after ∧ after.journal = world.journal := by
  obtain ⟨after, hnames, hafter⟩ := namesForType_eq hf h dependency.type
  have hjournal : after.journal = world.journal := by
    have hquiet : Work.Compositional fun _ work =>
        work.Keeps fun world after => after.journal = world.journal :=
      Work.compositional_keeps (fun _ => rfl) fun _ _ _ hab hbc => hbc.trans hab
    refine (hquiet.namesForType (fun name => ?_) dependency.type).run hnames
    exact Work.keeps_takeMerged (R := fun world after => after.journal = world.journal) (fun _ => rfl)
      fun world merged _ => World.journal_keepMerged _ world
  refine ⟨after, ?_, hafter, hjournal⟩
  unfold candidatesFor World.candidates
  rw [Work.bind_apply_ok hnames]
  cases dependency.qualifier with
  | none => rfl
  | some qualifier =>
    dsimp only
    rw [Work.state_bind_apply, World.canonicalName_congr (hafter.sources registry.index).2]
    rfl

/-- **What is injected is settled before any bean is had**: it is what the nearest container supplies that
has candidates, or nothing. -/
theorem autowire_settled (dependency : Dependency) (requester : String) (converter : Converter)
    {base : World} :
    ∀ {chain : Chain} {world : World}, family.Has chain → base.Unmoved family world →
      ∃ between, base.Unmoved family between ∧ between.journal = world.journal ∧
        ((base.NoneSupplies dependency requester chain ∧
            ∀ fetch, autowire fetch chain dependency requester converter world =
              (.ok ([], if dependency.required then .error (.noSuchBeanOfType dependency.type.name)
                else .ok .null), between)) ∨
          ∃ registry ancestors, base.Supplies dependency requester chain registry ancestors ∧
            ∀ fetch, autowire fetch chain dependency requester converter world =
              inject fetch registry ancestors dependency converter
                (base.candidates dependency requester registry ancestors) between)
  | [], world, _, h =>
    ⟨world, h, rfl, .inl ⟨fun _ _ hpart => (List.cons_ne_nil _ _ (List.suffix_nil.mp hpart)).elim,
      fun _ => rfl⟩⟩
  | registry :: ancestors, world, hf, h => by
    obtain ⟨listed, hrun, hlisted, hjournal⟩ := candidatesFor_eq hf h dependency requester
    have hautowire (fetch : Fetch) :
        autowire fetch (registry :: ancestors) dependency requester converter world =
          (if (base.candidates dependency requester registry ancestors).isEmpty then
            autowire fetch ancestors dependency requester converter
          else inject fetch registry ancestors dependency converter
            (base.candidates dependency requester registry ancestors)) listed :=
      Work.bind_apply_ok hrun
    -- without candidates here it is settled above, from a world that is as little moved
    by_cases hnone : base.candidates dependency requester registry ancestors = []
    · obtain ⟨between, hbetween, hquiet, hsettled⟩ :=
        autowire_settled dependency requester converter (family.ancestors_has hf) hlisted
      simp only [hnone, List.isEmpty_nil, if_true] at hautowire
      refine ⟨between, hbetween, hquiet.trans hjournal, hsettled.imp ?_ ?_⟩
      · rintro ⟨hnothing, habove⟩
        refine ⟨fun other others hpart => ?_, fun fetch => (hautowire fetch).trans (habove fetch)⟩
        rcases List.suffix_cons_iff.mp hpart with heq | hrest
        · cases heq
          exact hnone
        · exact hnothing other others hrest
      · rintro ⟨other, others, hsupplies, habove⟩
        exact ⟨other, others, .above hnone hsupplies, fun fetch => (hautowire fetch).trans (habove fetch)⟩
    · refine ⟨listed, hlisted, hjournal, .inr ⟨registry, ancestors, .here hnone, fun fetch => ?_⟩⟩
      rw [hautowire, if_neg (by simpa using hnone)]

/-! ## Having the beans -/

/-- Beans are had by their names, one right after the other, between two worlds. -/
inductive World.HadInTurn (depth : Nat) (chain : Chain) : World → List (String × Value) → World → Prop
  | nil (world : World) : HadInTurn depth chain world [] world
  | cons {world between after : World} {name : String} {value : Value} {rest : List (String × Value)}
      (hhad : Chain.bean depth chain name world = (.ok value, between))
      (hrest : HadInTurn depth chain between rest after) :
      HadInTurn depth chain world ((name, value) :: rest) after

theorem World.HadInTurn.fetchAll {depth : Nat} {chain : Chain} {world after : World}
    {had : List (String × Value)} (h : HadInTurn depth chain world had after) :
    fetchAll (serve depth).fetch chain (had.map Prod.fst) world = (.ok (had, .ok ()), after) := by
  induction h with
  | nil => rfl
  | cons hhad _ ih => exact fetchAll_cons_eq_ok_iff.mpr ⟨_, _, _, hhad, ih, rfl⟩

/-- Having all of some beans is having them in turn. -/
theorem fetchAll_eq_ok_iff {depth : Nat} {chain : Chain} {after : World} {names : List String}
    {had : List (String × Value)} {world : World} :
    fetchAll (serve depth).fetch chain names world = (.ok (had, .ok ()), after) ↔
      had.map Prod.fst = names ∧ World.HadInTurn depth chain world had after := by
  refine ⟨fun h => ?_, fun ⟨hnames, hhad⟩ => hnames ▸ hhad.fetchAll⟩
  induction names generalizing had world with
  | nil =>
    cases h
    exact ⟨rfl, .nil _⟩
  | cons name names ih =>
    obtain ⟨value, between, others, hfirst, hrest, rfl⟩ := fetchAll_cons_eq_ok_iff.mp h
    obtain ⟨rfl, hothers⟩ := ih hrest
    exact ⟨rfl, .cons hfirst hothers⟩

/-! ## Injecting -/

/-- Names are reported and a value is injected for a dependency, of which a container has these
candidates, between two worlds. -/
inductive World.Injects (depth : Nat) (registry : Registry) (ancestors : Chain) (dependency : Dependency)
    (converter : Converter) (state : State) (candidates : List String) (world after : World) :
    List String → Value → Prop
  | single {chosen : String} {bean value : Value} (hshape : dependency.shape = .single)
      (hmeans : state.Means candidates dependency.name chosen)
      (hhad : Chain.bean depth (registry :: ancestors) chosen world = (.ok bean, after))
      (hvalue : converter bean dependency.type = .ok value) :
      Injects depth registry ancestors dependency converter state candidates world after [chosen] value
  | list {had : List (String × Value)} (hshape : dependency.shape = .list)
      (hnames : had.map Prod.fst = candidates)
      (hhad : World.HadInTurn depth (registry :: ancestors) world had after) :
      Injects depth registry ancestors dependency converter state candidates world after candidates
        (.list (had.map Prod.snd))
  | map {had : List (String × Value)} (hshape : dependency.shape = .map)
      (hnames : had.map Prod.fst = candidates)
      (hhad : World.HadInTurn depth (registry :: ancestors) world had after) :
      Injects depth registry ancestors dependency converter state candidates world after candidates
        (.map (had.map fun entry => (.text entry.1, entry.2)))

section

variable {depth : Nat} {registry : Registry} {ancestors : Chain} {dependency : Dependency}
  {converter : Converter} {candidates names : List String} {state : State} {world after : World}
  {value : Value}

/-- A map of beans by their names has one entry for each of them. -/
theorem mapOf_had {had : List (String × Value)} (h : (had.map Prod.fst).Nodup) :
    Value.mapOf (had.map fun entry => (.text entry.1, entry.2)) =
      .map (had.map fun entry => (.text entry.1, entry.2)) := by
  refine Value.mapOf_of_pairwise (List.pairwise_map.mpr ?_)
  refine (List.pairwise_map.mp h).imp fun {earlier later} hne => ?_
  rw [Value.same, beq_eq_false_iff_ne]
  exact hne.symm

/-- **What is injected is what the candidates give.** -/
theorem inject_eq_ok_iff (hnodup : candidates.Nodup)
    (hsources : state.SameSources (world.state registry.index)) :
    inject (serve depth).fetch registry ancestors dependency converter candidates world =
        (.ok (names, .ok value), after) ↔
      World.Injects depth registry ancestors dependency converter state candidates world after names
        value := by
  constructor
  · intro h
    cases hshape : dependency.shape with
    | single =>
      obtain ⟨chosen, bean, rfl, hmeant, hhad, hvalue⟩ := (inject_single_eq_ok_iff hshape).mp h
      rw [State.meant_congr hsources] at hmeant
      exact .single hshape (State.meant_eq_some_iff.mp hmeant) hhad hvalue
    | list =>
      obtain ⟨had, rfl, hhad, rfl⟩ := (inject_list_eq_ok_iff hshape).mp h
      obtain ⟨rfl, hturn⟩ := fetchAll_eq_ok_iff.mp hhad
      exact .list hshape rfl hturn
    | map =>
      obtain ⟨had, rfl, hhad, rfl⟩ := (inject_map_eq_ok_iff hshape).mp h
      obtain ⟨rfl, hturn⟩ := fetchAll_eq_ok_iff.mp hhad
      rw [mapOf_had hnodup]
      exact .map hshape rfl hturn
  · intro h
    cases h with
    | single hshape hmeans hhad hvalue =>
      have hmeant := State.meant_eq_some_iff.mpr hmeans
      rw [← State.meant_congr hsources] at hmeant
      exact (inject_single_eq_ok_iff hshape).mpr ⟨_, _, rfl, hmeant, hhad, hvalue⟩
    | list hshape hnames hturn =>
      have hhad := fetchAll_eq_ok_iff.mpr ⟨hnames, hturn⟩
      exact (inject_list_eq_ok_iff hshape).mpr ⟨_, hnames.symm, hhad, rfl⟩
    | map hshape hnames hturn =>
      have hhad := fetchAll_eq_ok_iff.mpr ⟨hnames, hturn⟩
      exact (inject_map_eq_ok_iff hshape).mpr ⟨_, hnames.symm, hhad, (mapOf_had (hnames ▸ hnodup)).symm⟩

/-- **Nobody is asked for a bean exactly if none of the candidates is meant for a single place.** -/
theorem inject_settled_iff (hsome : candidates ≠ []) {failure : Failure} :
    (∀ fetch, inject fetch registry ancestors dependency converter candidates world =
        (.ok (names, .error failure), after)) ↔
      names = [] ∧ failure = .noUniqueBean dependency.type.name candidates ∧ after = world ∧
        dependency.shape = .single ∧
        (world.state registry.index).meant candidates dependency.name = none := by
  constructor
  · intro h
    -- if somebody were asked, then what comes of it would be told by the answer
    have hasked := h fun _ _ => throw .tooDeep
    have hfetchAll : fetchAll (fun _ _ => throw .tooDeep) (registry :: ancestors) candidates world =
        (.error .tooDeep, world) := by
      obtain ⟨first, rest, rfl⟩ := List.exists_cons_of_ne_nil hsome
      rfl
    cases hshape : dependency.shape with
    | single =>
      cases hmeant : (world.state registry.index).meant candidates dependency.name with
      | none =>
        rw [inject_of_none_meant hshape hmeant] at hasked
        cases hasked
        exact ⟨rfl, rfl, rfl, rfl, rfl⟩
      | some chosen =>
        rw [inject_of_meant hshape hmeant] at hasked
        cases hasked
    | list | map =>
      unfold inject at hasked
      rw [hshape] at hasked
      dsimp only at hasked
      rw [Work.bind_apply_error hfetchAll] at hasked
      cases hasked
  · rintro ⟨rfl, rfl, rfl, hshape, hnone⟩ fetch
    exact inject_of_none_meant hshape hnone fetch

end

/-- **Autowiring reports exactly what it injects.** No container of the chain has a candidate, none is
required and null is injected; or else the nearest container that has candidates supplies the beans: all
of them in turn for a list or a map, and the one that is meant for a single place. That none of several is
meant is settled before any bean is asked for, whatever would come of asking. -/
theorem Chain.injection_reports (start : World) (member : family.Member) (dependency : Dependency)
    (requester : String) (converter : Converter) :
    ∃ between, start.Unmoved family between ∧ between.journal = start.journal ∧
      (∀ depth names value after,
        Chain.injection depth member.chain dependency requester converter start =
            (.ok (names, .ok value), after) ↔
          (start.NoneSupplies dependency requester member.chain ∧ dependency.required = false ∧
            value = .null ∧ names = [] ∧ after = between) ∨
          ∃ registry ancestors,
            start.Supplies dependency requester member.chain registry ancestors ∧
            World.Injects depth registry ancestors dependency converter (start.state registry.index)
              (start.candidates dependency requester registry ancestors) between after names value) ∧
      ∀ names,
        (∀ fetch, autowire fetch member.chain dependency requester converter start =
            (.ok ([], .error (.noUniqueBean dependency.type.name names)), between)) ↔
          dependency.shape = .single ∧ ∃ registry ancestors,
            start.Supplies dependency requester member.chain registry ancestors ∧
            names = start.candidates dependency requester registry ancestors ∧ 1 < names.length ∧
            ((start.state registry.index).primaries names).length ≠ 1 ∧
            ∀ wanted, dependency.name = some wanted → ∀ name ∈ names,
              ¬ (start.state registry.index).GoesBy name wanted := by
  obtain ⟨between, hbetween, hjournal, ⟨hnothing, hrun⟩ | ⟨registry, ancestors, hsupplies, hrun⟩⟩ :=
    autowire_settled dependency requester converter member.chain_has (World.Unmoved.refl family start)
  · -- there is nothing to inject, and whether that is a failure does not depend on any bean
    have hnobody {registry : Registry} {ancestors : Chain}
        (h : start.Supplies dependency requester member.chain registry ancestors) : False :=
      h.nonempty (hnothing registry ancestors h.suffix)
    refine ⟨between, hbetween, hjournal, fun depth names value after => ?_, fun names => ?_⟩
    · rw [Chain.injection, hrun]
      constructor
      · intro h
        cases hrequired : dependency.required with
        | true =>
          rw [hrequired] at h
          cases h
        | false =>
          rw [hrequired] at h
          cases h
          exact .inl ⟨hnothing, rfl, rfl, rfl, rfl⟩
      · rintro (⟨-, hrequired, rfl, rfl, rfl⟩ | ⟨_, _, hsupplies, -⟩)
        · rw [hrequired]
          rfl
        · exact (hnobody hsupplies).elim
    · refine iff_of_false (fun h => ?_) fun ⟨_, _, _, hsupplies, _⟩ => hnobody hsupplies
      have hfailed := (hrun fun _ _ => throw .tooDeep).symm.trans (h _)
      split at hfailed <;> cases hfailed
  · -- looking for candidates moved no sources, so it is still settled by the start which one is meant
    have hsources := hbetween.sources registry.index
    refine ⟨between, hbetween, hjournal, fun depth names value after => ?_, fun names => ?_⟩
    · rw [Chain.injection, hrun, inject_eq_ok_iff World.nodup_candidates hsources]
      constructor
      · exact fun h => .inr ⟨registry, ancestors, hsupplies, h⟩
      · rintro (⟨hnothing, -⟩ | ⟨other, others, hother, h⟩)
        · exact absurd (hnothing registry ancestors hsupplies.suffix) hsupplies.nonempty
        · obtain ⟨rfl, rfl⟩ := hsupplies.unique hother
          exact h
    · simp only [hrun]
      rw [inject_settled_iff hsupplies.nonempty, State.meant_congr hsources, State.meant_eq_none_iff]
      constructor
      · rintro ⟨-, hfailure, -, hshape, hone, hprimary, hplace⟩
        obtain rfl := (Failure.noUniqueBean.inj hfailure).2
        have hsome := List.length_pos_iff.mpr hsupplies.nonempty
        exact ⟨hshape, registry, ancestors, hsupplies, rfl, by omega, hprimary, hplace⟩
      · rintro ⟨hshape, other, others, hother, rfl, hseveral, hprimary, hplace⟩
        obtain ⟨rfl, rfl⟩ := hsupplies.unique hother
        exact ⟨rfl, rfl, rfl, hshape, hseveral.ne', hprimary, hplace⟩

/-! ### A bean that is meant by its alias -/

/-- Two beans of a class, and an alias for the first. -/
def rivalOperations : List (Operation (Family.lone plainRegistry)) :=
  let member := Registry.lone plainRegistry
  [.register member (.definition "a" { className := some "P" }),
    .register member (.definition "b" { className := some "P" }),
    .register member (.shorthand "a" "x")]

/-- A place with the name of the alias. -/
def rivalDependency : Dependency where
  type := .bean "P"
  name := some "x"

/-- The first of the two is injected, and its name is reported. -/
theorem injection_reports_alias :
    ∃ between value after,
      Chain.injection 1 [plainRegistry] rivalDependency "c" Conversion.simple
        (World.after rivalOperations) = (.ok (["a"], .ok value), after) ∧
      ∃ registry ancestors,
        (World.after rivalOperations).Supplies rivalDependency "c" [plainRegistry] registry ancestors ∧
        World.Injects 1 registry ancestors rivalDependency Conversion.simple
          ((World.after rivalOperations).state registry.index)
          ((World.after rivalOperations).candidates rivalDependency "c" registry ancestors) between after
          ["a"] value := by
  obtain ⟨between, -, -, hreports, -⟩ := Chain.injection_reports (World.after rivalOperations)
    (Registry.lone plainRegistry) rivalDependency "c" Conversion.simple
  have hgiven : (Chain.injection 1 [plainRegistry] rivalDependency "c" Conversion.simple
      (World.after rivalOperations)).1.toOption.map (fun given => (given.1, given.2.isOk)) =
        some (["a"], true) := by decide +kernel
  rcases hrun : Chain.injection 1 [plainRegistry] rivalDependency "c" Conversion.simple
      (World.after rivalOperations) with ⟨stop | ⟨names, failure | value⟩, after⟩ <;> rw [hrun] at hgiven
  · cases hgiven
  · cases (Prod.mk.inj (Option.some.inj hgiven)).2
  obtain ⟨rfl, -⟩ := Prod.mk.inj (Option.some.inj hgiven)
  rcases (hreports 1 ["a"] value after).mp hrun with ⟨-, -, -, hnames, -⟩ | hsupplied
  · cases hnames
  · exact ⟨between, value, after, rfl, hsupplied⟩

end Injector
