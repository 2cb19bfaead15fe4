import Injector.Proofs.Dependence.Mirror
import Injector.Proofs.Dependence.Reasons

/-!
# What a creation that fails leaves

Nothing is undone when a bean cannot be made. It is not kept, and no container takes notice of the attempt
in what it defines; but whatever was noted on the way stays noted: which beans were made for it, and on
which it depends. All of this was noted for a reason, so a failure leaves no notes but those that an
attempt which succeeds would make too (`Chain.bean_leaves_notes`).

The names that were given to nested beans are in use from then on, as their beans are depended on. So a
later attempt gives other names to nested beans than it would have given without the one that failed,
and exactly where a bean was noted to depend on the name (`State.freeName_eq_iff`).
-/

namespace Injector

variable {family : Family}

/-! ## Names in use -/

namespace State

/-- In the state, exactly those names are in use that were so before and those on which a bean was noted
to depend since. -/
def UsesMore (state after : State) : Prop :=
  ∀ name, after.isNameInUse name = true ↔
    state.isNameInUse name = true ∨ after.hasDependents name = true

/-- **A name is chosen as before, unless something was noted to depend on a bean of that name.** -/
theorem freeName_eq_iff {state after : State} (h : state.UsesMore after) (wanted : String) :
    after.freeName wanted = state.freeName wanted ↔
      after.hasDependents (state.freeName wanted) = false := by
  obtain ⟨count, -, heq, hfree, hbefore⟩ := state.freeName_first wanted
  rw [heq]
  constructor
  · intro hsame
    have hunused := after.not_inUse_freeName wanted
    rw [hsame] at hunused
    by_contra hused
    rw [(h _).mpr (.inr (by simpa using hused))] at hunused
    cases hunused
  · intro hnone
    refine freeName_of_first (Bool.eq_false_iff.mpr fun hused => ?_) fun earlier hlt =>
      (h _).mpr (.inl (hbefore earlier hlt))
    rcases (h _).mp hused with hused | hused
    · rw [hfree] at hused
      cases hused
    · rw [hnone] at hused
      cases hused

end State

/-! ## Registering after a failure and without it -/

namespace State

/-- The states have the same definitions and aliases, and what has no definition is bound in both or in
neither. -/
structure Alike (state other : State) : Prop where
  sources : state.SameSources other
  bound : ∀ name, (other.singletons.contains name || other.definitions.contains name) =
    (state.singletons.contains name || state.definitions.contains name)

namespace Alike

variable {state other : State}

theorem symm (h : state.Alike other) : other.Alike state :=
  ⟨⟨h.sources.1.symm, h.sources.2.symm⟩, fun name => (h.bound name).symm⟩

theorem containsLocal (h : state.Alike other) (name : String) :
    other.containsLocal name = state.containsLocal name := by
  unfold State.containsLocal
  dsimp only
  rw [World.canonicalName_congr h.sources.2]
  exact h.bound _

/-- If links have only grown, the names that are used more are those on which something depends. -/
theorem usesMore (h : state.Alike other) (hgrows : LinksGrow state.dependents other.dependents) :
    state.UsesMore other := by
  intro name
  unfold isNameInUse
  rw [h.containsLocal, h.sources.2]
  simp only [Bool.or_eq_true]
  constructor
  · rintro (hbefore | hnoted)
    · exact .inl (.inl hbefore)
    · exact .inr hnoted
  · rintro ((hbefore | hnoted) | hnoted)
    · exact .inl hbefore
    · exact .inr (hgrows.hasDependents hnoted)
    · exact .inr hnoted

/-- What is dropped with a definition is dropped in both. -/
theorem forget {name : String} (hsources : state.SameSources other)
    (h : ∀ wanted, wanted ≠ name → (other.singletons.contains wanted || other.definitions.contains wanted) =
      (state.singletons.contains wanted || state.definitions.contains wanted)) :
    (state.forget name).Alike (other.forget name) := by
  refine ⟨hsources, fun wanted => ?_⟩
  have herase (table : Table Value) :
      (table.erase name).contains wanted = if wanted = name then false else table.contains wanted := by
    unfold Table.contains
    rw [Table.find?_erase]
    split <;> rfl
  show ((other.singletons.erase name).contains wanted || other.definitions.contains wanted) =
    ((state.singletons.erase name).contains wanted || state.definitions.contains wanted)
  rw [herase, herase]
  by_cases he : wanted = name
  · rw [if_pos he, if_pos he, hsources.1]
  · rw [if_neg he, if_neg he]
    exact h wanted he

end Alike

/-- A change is made in both of two states that are alike, or in neither, and they stay alike. -/
def Matching (change : State → Except Failure State) : Prop :=
  ∀ {state other after : State}, state.Alike other → change state = .ok after →
    ∃ after', change other = .ok after' ∧ after.Alike after'

theorem matching_define (settings : Settings) (name : String) (definition : Definition) :
    Matching (define settings name definition) := by
  intro state other after h hok
  obtain ⟨hname, htaken, rfl⟩ := define_eq_ok_iff.mp hok
  obtain ⟨hdefinitions, haliases⟩ := h.sources
  refine ⟨_, define_eq_ok_iff.mpr ⟨hname, hdefinitions ▸ htaken, rfl⟩, Alike.forget ?_ ?_⟩
  · exact ⟨congrArg (·.insert name definition) hdefinitions, congrArg (·.erase name) haliases⟩
  · intro wanted hne
    have hinsert (table : Table Definition) :
        (table.insert name definition).contains wanted = table.contains wanted := by
      unfold Table.contains
      rw [Table.find?_insert, if_neg hne]
    dsimp only
    rw [hinsert, hinsert]
    exact h.bound wanted

theorem matching_remove (name : String) : Matching (remove name) := by
  intro state other after h hok
  obtain ⟨hdefined, rfl⟩ := remove_eq_ok_iff.mp hok
  obtain ⟨hdefinitions, haliases⟩ := h.sources
  refine ⟨_, remove_eq_ok_iff.mpr ⟨hdefinitions ▸ hdefined, rfl⟩, Alike.forget ?_ ?_⟩
  · exact ⟨congrArg (·.erase name) hdefinitions, haliases⟩
  · intro wanted hne
    have herase (table : Table Definition) :
        (table.erase name).contains wanted = table.contains wanted := by
      unfold Table.contains
      rw [Table.find?_erase, if_neg hne]
    dsimp only
    rw [herase, herase]
    exact h.bound wanted

/-- Taking an alias looks at definitions and aliases alone. -/
theorem addAlias_congr (settings : Settings) (name shorthand : String) {state other : State}
    (h : state.SameSources other) :
    addAlias settings name shorthand other =
      (addAlias settings name shorthand state).map fun after =>
        { other with aliases := after.aliases } := by
  obtain ⟨hdefinitions, haliases⟩ := h
  unfold addAlias
  dsimp only
  rw [hdefinitions, World.canonicalName_congr haliases, haliases]
  by_cases hself : shorthand = name
  · rw [if_pos hself, if_pos hself]
    rfl
  rw [if_neg hself, if_neg hself]
  by_cases hdefined : state.definitions.contains shorthand = true
  · rw [if_pos hdefined, if_pos hdefined]
    rfl
  rw [if_neg hdefined, if_neg hdefined]
  by_cases hend : state.canonicalName name = shorthand
  · rw [if_pos hend, if_pos hend]
    rfl
  rw [if_neg hend, if_neg hend]
  cases state.aliases.find? shorthand with
  | none => rfl
  | some existing =>
    dsimp only
    split
    · cases other
      cases hdefinitions
      cases haliases
      rfl
    · split <;> rfl

theorem matching_addAlias (settings : Settings) (name shorthand : String) :
    Matching (addAlias settings name shorthand) := by
  intro state other after h hok
  have hdefinitions : after.definitions = state.definitions ∧ after.singletons = state.singletons := by
    rcases addAlias_eq_ok hok with ⟨-, rfl⟩ | ⟨-, rfl⟩ | ⟨-, -, -, -, rfl⟩ <;> exact ⟨rfl, rfl⟩
  refine ⟨{ other with aliases := after.aliases }, ?_, ⟨?_, rfl⟩, fun wanted => ?_⟩
  · rw [addAlias_congr settings name shorthand h.sources, hok]
    rfl
  · exact h.sources.1.trans hdefinitions.1.symm
  · rw [hdefinitions.1, hdefinitions.2]
    exact h.bound wanted

/-- The state after a change, or the same state if the change is refused. -/
def outcome (change : State → Except Failure State) (state : State) : State :=
  match change state with
  | .ok after => after
  | .error _ => state

theorem Matching.both {change : State → Except Failure State} (hmatching : Matching change)
    {state other : State} (h : state.Alike other) :
    (change state).isOk = (change other).isOk ∧ (outcome change state).Alike (outcome change other) := by
  unfold State.outcome
  cases hok : change state with
  | ok after =>
    obtain ⟨after', hok', halike⟩ := hmatching h hok
    rw [hok']
    exact ⟨rfl, halike⟩
  | error failure =>
    cases hok' : change other with
    | ok after' =>
      obtain ⟨_, hnone, -⟩ := hmatching h.symm hok'
      rw [hok] at hnone
      cases hnone
    | error failure' => exact ⟨rfl, h⟩

/-- Whether a singleton is taken or refused, there is one of that name afterwards. -/
theorem outcome_addSingleton (name : String) (value : Value) (state : State) :
    state.SameSources (outcome (addSingleton name value) state) ∧
      ∀ wanted, (outcome (addSingleton name value) state).singletons.contains wanted =
        (decide (wanted = name) || state.singletons.contains wanted) := by
  unfold outcome addSingleton
  by_cases hbound : state.singletons.contains name = true
  · rw [if_pos hbound]
    refine ⟨⟨rfl, rfl⟩, fun wanted => ?_⟩
    by_cases he : wanted = name
    · rw [he]
      simpa using hbound
    · simp [he]
  · rw [if_neg hbound]
    refine ⟨⟨rfl, rfl⟩, fun wanted => ?_⟩
    dsimp only
    unfold Table.contains
    rw [Table.find?_insert]
    by_cases he : wanted = name
    · simp [he]
    · simp [he]

theorem Alike.addSingleton (name : String) (value : Value) {state other : State}
    (h : state.Alike other) :
    (outcome (addSingleton name value) state).Alike (outcome (State.addSingleton name value) other) := by
  obtain ⟨hstate, hbound⟩ := outcome_addSingleton name value state
  obtain ⟨hother, hbound'⟩ := outcome_addSingleton name value other
  refine ⟨⟨?_, ?_⟩, fun wanted => ?_⟩
  · rw [hother.1, h.sources.1, hstate.1]
  · rw [hother.2, h.sources.2, hstate.2]
  · rw [hbound, hbound', hstate.1, hother.1, Bool.or_assoc, Bool.or_assoc, h.bound]

end State

/-- Registering changes one state, or is refused. -/
theorem Work.state_register (registry : Registry) (change : State → Except Failure State) (world : World)
    (index : Nat) :
    (Work.register registry change world).2.state index =
      if index = registry.index then (world.state registry.index).outcome change
      else world.state index := by
  rw [Work.register_apply]
  unfold State.outcome
  cases change (world.state registry.index) with
  | ok after => exact World.state_withState world registry.index index after
  | error failure =>
    dsimp only
    by_cases he : index = registry.index
    · rw [if_pos he, he]
    · rw [if_neg he]

theorem Work.register_alike (registry : Registry) {change : State → Except Failure State}
    (hchange : ∀ {state other : State}, state.Alike other →
      (state.outcome change).Alike (other.outcome change))
    {world other : World} (h : Statewise State.Alike world other) :
    Statewise State.Alike (Work.register registry change world).2
      (Work.register registry change other).2 := by
  intro index
  rw [Work.state_register, Work.state_register]
  split
  · exact hchange (h registry.index)
  · exact h index

/-- The work is done in both of two worlds whose containers are alike, or in neither, and they stay
alike. -/
def Work.Matches (work : Work PUnit) : Prop :=
  ∀ world other : World, Statewise State.Alike world other →
    (work world).1.isOk = (work other).1.isOk ∧ Statewise State.Alike (work world).2 (work other).2

namespace Work.Matches

theorem register (registry : Registry) {change : State → Except Failure State}
    (hmatching : State.Matching change) : Work.Matches (Work.register registry change) := by
  intro world other h
  refine ⟨?_, Work.register_alike registry (fun halike => (hmatching.both halike).2) h⟩
  have hok := (hmatching.both (h registry.index)).1
  rw [Work.register_apply, Work.register_apply]
  revert hok
  cases change (world.state registry.index) <;> cases change (other.state registry.index) <;> exact id

theorem bind {work : Work PUnit} {next : PUnit → Work PUnit} (hwork : Work.Matches work)
    (hnext : Work.Matches (next ⟨⟩)) : Work.Matches (work >>= next) := by
  intro world other h
  obtain ⟨hok, halike⟩ := hwork world other h
  rw [Work.bind_apply, Work.bind_apply]
  rcases hrun : work world with ⟨stop | ⟨⟩, after⟩ <;> rw [hrun] at hok halike <;>
    rcases hrun' : work other with ⟨stop' | ⟨⟩, after'⟩ <;> rw [hrun'] at hok halike
  · exact ⟨rfl, halike⟩
  · cases hok
  · cases hok
  · exact hnext after after' halike

theorem forM {α : Type} {work : α → Work PUnit} (hwork : ∀ value, Work.Matches (work value)) :
    ∀ values : List α, Work.Matches (values.forM work)
  | [] => fun _ _ h => ⟨rfl, h⟩
  | value :: rest => (hwork value).bind (forM hwork rest)

end Work.Matches

/-- **Whatever is registered, containers that are alike stay alike.** -/
theorem Registry.take_alike (registry : Registry) (registration : Registration) {world other : World}
    (h : Statewise State.Alike world other) :
    Statewise State.Alike (registry.take registration world).2
      (registry.take registration other).2 := by
  have hdefine (name : String) (definition : Definition) : Work.Matches (registry.define name definition) :=
    .register registry (State.matching_define _ _ _)
  have haddAlias (name shorthand : String) : Work.Matches (registry.addAlias name shorthand) :=
    .register registry (State.matching_addAlias _ _ _)
  cases registration with
  | definition name definition => exact (hdefine name definition world other h).2
  | holder name shorthands definition =>
    exact ((hdefine name definition).bind (.forM (haddAlias name) shorthands) world other h).2
  | removal name => exact (Work.Matches.register registry (State.matching_remove name) world other h).2
  | shorthand name shorthand => exact (haddAlias name shorthand world other h).2
  | singleton name value => exact Work.register_alike registry (·.addSingleton name value) h

/-- What was registered after a request, and what would have been registered without it. -/
theorem World.followed_registrations_alike :
    ∀ (registrations : List (family.Member × Registration)) {world other : World},
      Statewise State.Alike world other →
      Statewise State.Alike
        (world.followed (registrations.map fun taken => Operation.register taken.1 taken.2))
        (other.followed (registrations.map fun taken => Operation.register taken.1 taken.2))
  | [], _, _, h => h
  | taken :: rest, _, _, h =>
    followed_registrations_alike rest (Registry.take_alike taken.1.registry taken.2 h)

/-- Registering notes nothing. -/
theorem World.followed_registrations_dependents (index : Nat) :
    ∀ (registrations : List (family.Member × Registration)) (world : World),
      ((world.followed (registrations.map fun taken =>
        Operation.register taken.1 taken.2)).state index).dependents = (world.state index).dependents
  | [], _ => rfl
  | taken :: rest, world =>
    (followed_registrations_dependents index rest _).trans
      (taken.1.registry.take_links taken.2 world index).1

/-! ## What is left -/

/-- A singleton that is new has a definition. -/
theorem World.Advances.alike {world after : World} (h : world.Advances family after) :
    Statewise State.Alike world after := by
  intro index
  obtain ⟨new, -, hfates⟩ := h.fates
  have hframed := h.framed index
  refine ⟨hframed.sources, fun name => ?_⟩
  rw [hframed.sources.1]
  cases hfates index name with
  | unchanged hsame =>
    unfold Table.contains
    rw [hsame]
  | made value _ _ _ _ hshares =>
    have hdefined := hshares.defined
    rw [hframed.sources.1] at hdefined
    rw [hdefined, Bool.or_true, Bool.or_true]

/-- What a request leaves of a container. What was noted stays noted, and what is new was noted for a
reason. -/
structure World.LeavesNotes (family : Family) (start after : World) (index : Nat) : Prop where
  sources : (start.state index).SameSources (after.state index)
  idle : (after.state index).inCreation = .empty
  contained : ∀ outer,
    (start.state index).containedIn outer <+: (after.state index).containedIn outer ∧
      ∀ inner ∈ (after.state index).containedIn outer,
        inner ∈ (start.state index).containedIn outer ∨ start.Encloses family index outer inner
  dependencies : ∀ dependent,
    (start.state index).dependenciesOf dependent <+: (after.state index).dependenciesOf dependent ∧
      ∀ name ∈ (after.state index).dependenciesOf dependent,
        name ∈ (start.state index).dependenciesOf dependent ∨
          start.Asks family after index name dependent

/-- **A request leaves notes for which there are reasons, even if it fails, and nothing else that names of
nested beans depend on.** Whatever comes of having a bean: definitions and aliases are as before, no bean
is being created, and of each bean it is told that it contains and depends on what it did before, and
behind that on what the definitions give a reason for. Whatever is registered then, a name is in use if it
would be so without the request, or if something depends on it now. So the name chosen for a nested bean is
the one that would be chosen without the request, exactly if nothing depends on that one now. -/
theorem Chain.bean_leaves_notes {start : World} (h : Reachable family start) (member : family.Member)
    (depth : Nat) (written : String) (index : Nat) :
    start.LeavesNotes family (Chain.bean depth member.chain written start).2 index ∧
      ∀ registrations : List (family.Member × Registration),
        let operations := registrations.map fun taken => Operation.register taken.1 taken.2
        let without := (start.followed operations).state index
        let later := ((Chain.bean depth member.chain written start).2.followed operations).state index
        without.UsesMore later ∧
        ∀ wanted, later.freeName wanted = without.freeName wanted ↔
          ((Chain.bean depth member.chain written start).2.state index).hasDependents
            (without.freeName wanted) = false := by
  have hadvances : start.Advances family (Chain.bean depth member.chain written start).2 :=
    (serve_advancing family depth).1 _ written member.chain_has start h.aliasesUndefined
  have hlinked : Linked family start (Chain.bean depth member.chain written start).2 :=
    (linking family start depth).bean _ written member.chain_has start (.refl family start)
  have hreachable : Reachable family ((Operation.inquire member depth (.bean written)).next start) :=
    h.next _
  have hnext : ((Operation.inquire member depth (.bean written)).next start) =
      (Chain.bean depth member.chain written start).2 := Work.discard_apply _ start
  rw [hnext] at hreachable
  have hframed := hadvances.framed index
  refine ⟨⟨hframed.sources, hreachable.idle index, fun outer => ⟨?_, ?_⟩, fun dependent => ⟨?_, ?_⟩⟩, ?_⟩
  · exact hframed.contained.names outer
  · exact hlinked.contained index outer
  · exact hframed.dependencies.names dependent
  · intro name hname
    refine (hlinked.links index name dependent (hreachable.counted index name dependent hname)).imp_left ?_
    exact h.mirrored index name dependent
  · intro registrations operations without later
    -- registering notes no links, so later on the dependents are still those of before
    have hdependents : later.dependents =
        ((Chain.bean depth member.chain written start).2.state index).dependents :=
      World.followed_registrations_dependents index registrations _
    have hbefore : without.dependents = (start.state index).dependents :=
      World.followed_registrations_dependents index registrations _
    have hmore : without.UsesMore later := by
      refine State.Alike.usesMore
        (World.followed_registrations_alike registrations hadvances.alike index) ?_
      rw [hdependents, hbefore]
      exact hframed.dependents
    refine ⟨hmore, fun wanted => ?_⟩
    rw [State.freeName_eq_iff hmore, State.hasDependents_congr hdependents]

/-! ### A bean that is made at the second attempt -/

/-- The bean `o` has a nested bean named `x`, and then refers to `c`, which is not defined. -/
def retriedOperations : List (Operation (Family.lone plainRegistry)) :=
  let member := Registry.lone plainRegistry
  [.register member (.definition "o"
    { className := some "P"
      properties := [("a", .holder "x" [] { className := some "P" }),
        ("b", .reference { name := some "c" })] })]

/-- The bean that was missing is defined. -/
def repair : List ((Family.lone plainRegistry).Member × Registration) :=
  [(Registry.lone plainRegistry, .definition "c" { className := some "P" })]

/-- After the first attempt, which fails, `o` is noted to contain `x`, and the name `x` is in use. So the
nested bean gets another name in the second attempt. -/
theorem bean_leaves_notes_retried :
    let start := World.after retriedOperations
    let failed := Chain.bean 2 (Registry.lone plainRegistry).chain "o" start
    let repaired := repair.map fun taken => Operation.register taken.1 taken.2
    failed.1.isOk = false ∧ start.LeavesNotes (Family.lone plainRegistry) failed.2 0 ∧
      ((failed.2.followed repaired).state 0).freeName "x" ≠
        ((start.followed repaired).state 0).freeName "x" := by
  intro start failed repaired
  obtain ⟨hnotes, hnames⟩ := Chain.bean_leaves_notes ⟨retriedOperations, rfl⟩
    (Registry.lone plainRegistry) 2 "o" 0
  refine ⟨by decide +kernel, hnotes, fun hsame => ?_⟩
  have hunused := ((hnames repair).2 "x").mp hsame
  have hused : (failed.2.state 0).hasDependents (((start.followed repaired).state 0).freeName "x") =
      true := by decide +kernel
  rw [hused] at hunused
  cases hunused

/-- **A failed attempt is not undone.** What `o` is noted to contain and to depend on is not what it was
before, nor is the set of names in use; and once `c` is defined, the nested bean of `o` is named `x`
without the failed attempt and `x#1` after it. -/
theorem not_undone_after_failure :
    let start := World.after retriedOperations
    let failed := Chain.bean 2 (Registry.lone plainRegistry).chain "o" start
    let repaired := repair.map fun taken => Operation.register taken.1 taken.2
    failed.1.isOk = false ∧
      (start.state 0).containedIn "o" = [] ∧ (failed.2.state 0).containedIn "o" = ["x"] ∧
      (start.state 0).dependenciesOf "o" = [] ∧ (failed.2.state 0).dependenciesOf "o" = ["x"] ∧
      (start.state 0).isNameInUse "x" = false ∧ (failed.2.state 0).isNameInUse "x" = true ∧
      (Chain.bean 2 (Registry.lone plainRegistry).chain "o" (start.followed repaired)).1.isOk = true ∧
      (Chain.bean 2 (Registry.lone plainRegistry).chain "o" (failed.2.followed repaired)).1.isOk = true ∧
      (Chain.bean 2 (Registry.lone plainRegistry).chain "o" (start.followed repaired)).2.namesGiven 0 =
        ["x"] ∧
      (Chain.bean 2 (Registry.lone plainRegistry).chain "o" (failed.2.followed repaired)).2.namesGiven 0 =
        ["x#1", "x"] := by
  decide +kernel

end Injector
