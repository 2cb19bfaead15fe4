import Injector.Proofs.Requests.Serving
import Mathlib.Data.List.Induction

/-!
# Runs

An operation registers something in a container of a family, or asks something of it. A run is a list
of operations, done one after the other in a world in which nothing is registered; an operation that
fails ends itself and not the run.

Asking never touches what registrations have laid down: definitions and aliases are the same before and
after (`Inquiry.sameSources`). That is why most of what can be said about names is settled by the four
registrations alone.

## Faults in a run

Some properties of a world get lost in an operation of one particular kind. `forall_prefix_iff` turns
what one operation does into what a whole run does: the property holds all the way if and only if no
operation of that kind is among those done.
-/

namespace Injector

/-! ## Operations -/

/-- What can be registered in a container. -/
inductive Registration
  | definition (name : String) (definition : Definition)
  /-- A definition with further names for it. -/
  | holder (name : String) (shorthands : List String) (definition : Definition)
  | removal (name : String)
  | shorthand (name shorthand : String)
  | singleton (name : String) (value : Value)

/-- Takes a registration. -/
def Registry.take (registry : Registry) : Registration → Work Unit
  | .definition name definition => registry.define name definition
  | .holder name shorthands definition => registry.defineWithAliases name shorthands definition
  | .removal name => registry.remove name
  | .shorthand name shorthand => registry.addAlias name shorthand
  | .singleton name value => registry.addSingleton name value

/-- What can be asked of a container. -/
inductive Inquiry
  | bean (name : String)
  | beanOfType (name : String) (type : ValueType)
  | beanByType (type : ValueType)
  | namedBean (type : ValueType)
  | candidates (type : ValueType)
  | injection (dependency : Dependency) (requester : String) (converter : Converter)
  | singletons
  | merged (name : String)
  | mergedNested (name : String) (definition : Definition) (containing : Option Definition)
  | creation (name : String) (definition : Definition)
  | product (label : BeanLabel) (maker : Factory Value) (name : String) (processed : Bool)
  /-- To note that one bean, the user, depends on another. -/
  | dependent (name user : String)
  | contained (inner outer : String)
  /-- Resolving a raw value for its own sake, for a bean of that name and definition. -/
  | resolution (beanName : String) (definition : Definition) (converter : Converter)
      (path : ArgumentPath) (raw : RawValue) (times : Nat)

/-- Answers an inquiry, with requests nested no deeper than the given depth. -/
def Inquiry.answer (depth : Nat) (registry : Registry) (ancestors : Chain) : Inquiry → Work Unit
  | .bean name => discard (Chain.bean depth (registry :: ancestors) name)
  | .beanOfType name type => discard (Chain.beanOfType depth (registry :: ancestors) name type)
  | .beanByType type => discard (Chain.beanByType depth (registry :: ancestors) type)
  | .namedBean type => discard (Chain.namedBean depth (registry :: ancestors) type)
  | .candidates type => discard (namesForType registry ancestors type)
  | .injection dependency requester converter =>
    discard (Chain.injection depth (registry :: ancestors) dependency requester converter)
  | .singletons => Chain.makeSingletons depth registry ancestors
  | .merged name => discard (mergedDefinition (registry :: ancestors) name)
  | .mergedNested name definition containing =>
    discard (mergedNestedDefinition (registry :: ancestors) name definition containing)
  | .creation name definition => discard (Chain.create depth (registry :: ancestors) name definition)
  | .product label maker name processed => discard (productOf registry label maker name processed)
  | .dependent name user => registry.noteDependent name user
  | .contained inner outer => registry.noteContained inner outer
  | .resolution beanName definition converter path raw times => do
    modify fun world => { world with bench := raw }
    discard (Chain.resolveBench
      { provider := registry.provider ancestors (serve depth) depth
        beanName
        definition
        converter
        owner := .bench }
      path times)

/-- Something that is done with a container of a family. -/
inductive Operation (family : Family)
  | register (member : family.Member) (registration : Registration)
  | inquire (member : family.Member) (depth : Nat) (inquiry : Inquiry)

variable {family : Family}

/-- Does an operation. -/
def Operation.perform : Operation family → Work Unit
  | .register member registration => member.registry.take registration
  | .inquire member depth inquiry => inquiry.answer depth member.registry member.ancestors

/-- The world after an operation, whatever came of it. -/
def Operation.next (operation : Operation family) (world : World) : World :=
  (operation.perform world).2

/-! ## Runs -/

/-- The world after a run. -/
def World.after (operations : List (Operation family)) : World :=
  operations.foldl (fun world operation => operation.next world) {}

/-- A world that a run leads to. -/
def Reachable (family : Family) (world : World) : Prop :=
  ∃ operations : List (Operation family), world = World.after operations

theorem after_concat (operations : List (Operation family)) (operation : Operation family) :
    World.after (operations ++ [operation]) = operation.next (World.after operations) := by
  unfold World.after
  rw [List.foldl_append, List.foldl_cons, List.foldl_nil]

theorem Reachable.next {world : World} (h : Reachable family world)
    (operation : Operation family) : Reachable family (operation.next world) := by
  obtain ⟨operations, rfl⟩ := h
  exact ⟨operations ++ [operation], (after_concat operations operation).symm⟩

/-- What holds at the start and is kept by every operation holds in every reachable world. -/
theorem Reachable.induction {P : World → Prop} (hempty : P {})
    (hnext : ∀ (world : World) (operation : Operation family),
      Reachable family world → P world → P (operation.next world))
    {world : World} (h : Reachable family world) : P world := by
  obtain ⟨operations, rfl⟩ := h
  induction operations using List.reverseRecOn with
  | nil => exact hempty
  | append_singleton operations operation ih =>
    rw [after_concat]
    exact hnext _ operation ⟨operations, rfl⟩ ih

/-- **If one operation keeps a property exactly when it has no fault, then a run keeps the property
all the way exactly when none of its operations has a fault.** -/
theorem forall_prefix_iff {P : World → Prop} {Fault : World → Operation family → Prop}
    (hempty : P {})
    (hnext : ∀ (world : World) (operation : Operation family),
      Reachable family world → P world → (P (operation.next world) ↔ ¬ Fault world operation))
    (operations : List (Operation family)) :
    (∀ done, done <+: operations → P (World.after done)) ↔
      ∀ done operation, done ++ [operation] <+: operations →
        ¬ Fault (World.after done) operation := by
  constructor
  · intro h done operation hdone
    have hbefore : P (World.after done) := h done ((List.prefix_append _ _).trans hdone)
    have hafter : P (World.after (done ++ [operation])) := h _ hdone
    rw [after_concat] at hafter
    exact (hnext _ operation ⟨done, rfl⟩ hbefore).mp hafter
  · intro h done
    induction done using List.reverseRecOn with
    | nil => exact fun _ => hempty
    | append_singleton done operation ih =>
      intro hdone
      have hbefore : P (World.after done) := ih ((List.prefix_append _ _).trans hdone)
      rw [after_concat]
      exact (hnext _ operation ⟨done, rfl⟩ hbefore).mpr (h done operation hdone)

/-- What every operation keeps as long as a property holds, holds all the way if the property does. -/
theorem forall_prefix_of {P Q : World → Prop} (hempty : Q {})
    (hnext : ∀ (world : World) (operation : Operation family),
      Reachable family world → P world → P (operation.next world) → Q world → Q (operation.next world))
    {operations : List (Operation family)}
    (h : ∀ done, done <+: operations → P (World.after done)) :
    ∀ done, done <+: operations → Q (World.after done) := by
  intro done
  induction done using List.reverseRecOn with
  | nil => exact fun _ => hempty
  | append_singleton done operation ih =>
    intro hdone
    have hbefore : done <+: operations := (List.prefix_append _ _).trans hdone
    have hafter : P (World.after (done ++ [operation])) := h _ hdone
    rw [after_concat] at hafter ⊢
    exact hnext _ operation ⟨done, rfl⟩ (h done hbefore) hafter (ih hbefore)

/-! ## Relations that look at every state by itself -/

/-- In every container, the state after is related to the state before. -/
def Statewise (Q : State → State → Prop) (world after : World) : Prop :=
  ∀ index, Q (world.state index) (after.state index)

namespace Statewise

variable {Q : State → State → Prop}

theorem refl (hrefl : ∀ state, Q state state) (world : World) : Statewise Q world world :=
  fun _ => hrefl _

theorem trans (htrans : ∀ a b c, Q a b → Q b c → Q a c) (a b c : World) (hab : Statewise Q a b)
    (hbc : Statewise Q b c) : Statewise Q a c :=
  fun index => htrans _ _ _ (hab index) (hbc index)

/-- A change of one state leaves the others as they are. -/
theorem withState (hrefl : ∀ state, Q state state) {world : World} {index : Nat} {state : State}
    (h : Q (world.state index) state) : Statewise Q world (world.withState index state) := by
  intro other
  rw [World.state_withState]
  split
  · next he =>
    rw [he]
    exact h
  · exact hrefl _

end Statewise

/-! ## What registering does -/

theorem Work.register_apply (registry : Registry) (change : State → Except Failure State)
    (world : World) :
    Work.register registry change world =
      match change (world.state registry.index) with
      | .ok state => (.ok (), world.withState registry.index state)
      | .error failure => (.error (.failure failure), world) := by
  unfold Work.register
  rw [Work.bind_apply, Work.state_apply]
  dsimp only
  rw [Work.bind_apply]
  cases change (world.state registry.index) with
  | ok state => rfl
  | error failure => rfl

/-- Registering keeps a relation if it relates what a state becomes. -/
theorem Work.keeps_register {R : World → World → Prop} (hrefl : ∀ world, R world world)
    {registry : Registry} {change : State → Except Failure State}
    (h : ∀ world state, change (world.state registry.index) = .ok state →
      R world (world.withState registry.index state)) :
    Work.Keeps R (Work.register registry change) := by
  intro world
  rw [Work.register_apply]
  cases hc : change (world.state registry.index) with
  | ok state => exact h world state hc
  | error failure => exact hrefl world

/-- A registration has a property if the four elementary ones have it. -/
theorem Registry.take_mem {K : (α : Type) → Work α → Prop} (hK : Work.Compositional K)
    {registry : Registry} (hdefine : ∀ name definition, K Unit (registry.define name definition))
    (haddAlias : ∀ name shorthand, K Unit (registry.addAlias name shorthand))
    (hremove : ∀ name, K Unit (registry.remove name))
    (haddSingleton : ∀ name value, K Unit (registry.addSingleton name value))
    (registration : Registration) : K Unit (registry.take registration) := by
  cases registration with
  | definition name definition => exact hdefine name definition
  | holder name shorthands definition =>
    exact hK.bind (hdefine name definition) fun _ => hK.forM fun shorthand _ => haddAlias name shorthand
  | removal name => exact hremove name
  | shorthand name shorthand => exact haddAlias name shorthand
  | singleton name value => exact haddSingleton name value

/-- A property of every state is kept if the state that changes keeps it. -/
theorem World.forall_state_withState {P : State → Prop} {world : World} {index : Nat}
    {state : State} (h : ∀ other, P (world.state other)) (hstate : P state) :
    ∀ other, P ((world.withState index state).state other) := by
  intro other
  rw [World.state_withState]
  split
  · exact hstate
  · exact h other

/-- All states keep a property exactly if the registering state keeps it. -/
theorem World.forall_state_register_iff {P : State → Prop} {world : World}
    (h : ∀ index, P (world.state index)) (registry : Registry)
    (change : State → Except Failure State) :
    (∀ index, P ((Work.register registry change world).2.state index)) ↔
      ∀ after, change (world.state registry.index) = .ok after → P after := by
  rw [Work.register_apply]
  cases change (world.state registry.index) with
  | error failure =>
    refine iff_of_true h fun after hok => ?_
    cases hok
  | ok state =>
    constructor
    · intro hafter after hok
      have hstate := hafter registry.index
      rw [World.state_withState, if_pos rfl, Except.ok.inj hok] at hstate
      exact hstate
    · intro hok
      exact World.forall_state_withState h (hok state rfl)

/-- A registration relates all states if the four elementary ones relate the state that changes. -/
theorem Registry.take_statewise {Q : State → State → Prop} {registry : Registry}
    (hrefl : ∀ state, Q state state) (htrans : ∀ a b c, Q a b → Q b c → Q a c)
    (hdefine : ∀ name definition state after,
      State.define registry.settings name definition state = .ok after → Q state after)
    (haddAlias : ∀ name shorthand state after,
      State.addAlias registry.settings name shorthand state = .ok after → Q state after)
    (hremove : ∀ name state after, State.remove name state = .ok after → Q state after)
    (haddSingleton : ∀ name value state after,
      State.addSingleton name value state = .ok after → Q state after)
    (registration : Registration) : (registry.take registration).Keeps (Statewise Q) := by
  have hworld : ∀ world, Statewise Q world world := Statewise.refl hrefl
  refine Registry.take_mem (Work.compositional_keeps hworld (Statewise.trans htrans))
    ?_ ?_ ?_ ?_ registration
  · exact fun name definition => Work.keeps_register hworld fun _ after hok =>
      Statewise.withState hrefl (hdefine name definition _ after hok)
  · exact fun name shorthand => Work.keeps_register hworld fun _ after hok =>
      Statewise.withState hrefl (haddAlias name shorthand _ after hok)
  · exact fun name => Work.keeps_register hworld fun _ after hok =>
      Statewise.withState hrefl (hremove name _ after hok)
  · exact fun name value => Work.keeps_register hworld fun _ after hok =>
      Statewise.withState hrefl (haddSingleton name value _ after hok)

/-- Registering changes no other container. -/
theorem Registry.take_elsewhere {registry : Registry} {index : Nat} (h : index ≠ registry.index)
    (registration : Registration) :
    (registry.take registration).Keeps fun world after => after.state index = world.state index := by
  have hK := Work.compositional_keeps (R := fun world after => after.state index = world.state index)
    (fun _ => rfl) fun _ _ _ hab hbc => hbc.trans hab
  have hregister : ∀ change : State → Except Failure State,
      (Work.register registry change).Keeps fun world after =>
        after.state index = world.state index := fun change =>
    Work.keeps_register (R := fun world after => after.state index = world.state index)
      (fun _ => rfl) fun world state _ => by rw [World.state_withState, if_neg h]
  exact Registry.take_mem hK (fun _ _ => hregister _) (fun _ _ => hregister _)
    (fun _ => hregister _) (fun _ _ => hregister _) registration

/-- Registering notes nothing. -/
theorem Registry.take_journal (registry : Registry) (registration : Registration) :
    (registry.take registration).Keeps fun world after => after.journal = world.journal := by
  have hK := Work.compositional_keeps (R := fun world after => after.journal = world.journal)
    (fun _ => rfl) fun _ _ _ hab hbc => hbc.trans hab
  have hregister : ∀ change : State → Except Failure State,
      (Work.register registry change).Keeps fun world after => after.journal = world.journal :=
    fun change => hK.bind (hK.state registry) fun _ => hK.bind (hK.ofExcept _) fun _ => fun _ => rfl
  exact Registry.take_mem hK (fun _ _ => hregister _) (fun _ _ => hregister _)
    (fun _ => hregister _) (fun _ _ => hregister _) registration

/-! ## What asking does -/

/-- Makes the singleton of a name, if there is to be one that is not lazy. -/
def Chain.makeSingleton (depth : Nat) (registry : Registry) (ancestors : Chain) (name : String) :
    Work Unit := do
  let merged ← mergedDefinition (registry :: ancestors) name
  if merged.isSingleton && !merged.lazy then
    let isFactory := merged.className.any fun name => (registry.classes.productType? name).isSome
    discard (Chain.bean depth (registry :: ancestors) (if isFactory then factoryMark ++ name else name))

theorem Chain.makeSingletons_eq (depth : Nat) (registry : Registry) (ancestors : Chain) :
    Chain.makeSingletons depth registry ancestors = Work.state registry >>= fun state =>
      state.definitions.keys.forM (Chain.makeSingleton depth registry ancestors) :=
  rfl

namespace Minding

variable {K : (α : Type) → Work α → Prop} (hK : Minding family K)
  {registry : Registry} {ancestors : Chain} {depth : Nat}
  (hbean : ∀ chain name, family.Has chain → K Value (serve depth (.bean chain name)))
  (hf : family.Has (registry :: ancestors))

include hK hbean hf

theorem makeSingleton (name : String) : K Unit (Chain.makeSingleton depth registry ancestors name) := by
  refine hK.bind (hK.merged hf name) fun merged => ?_
  dsimp only
  split
  · exact hK.discard (hbean _ _ hf)
  · exact hK.pure _

theorem makeSingletons : K Unit (Chain.makeSingletons depth registry ancestors) :=
  hK.bind (hK.state registry) fun _ => hK.forM fun name _ => hK.makeSingleton hbean hf name

/-- Answering an inquiry has a property if having beans has it, and what is noted, created or resolved
for the inquiry by hand. -/
theorem answer (inquiry : Inquiry)
    (hdependent : ∀ name user, inquiry = .dependent name user →
      K Unit (registry.noteDependent name user))
    (hcontained : ∀ inner outer, inquiry = .contained inner outer →
      K Unit (registry.noteContained inner outer))
    (hcreation : ∀ name definition, inquiry = .creation name definition →
      K Value (Chain.create depth (registry :: ancestors) name definition))
    (hresolution : ∀ beanName definition converter path raw times,
      inquiry = .resolution beanName definition converter path raw times →
        K Unit (inquiry.answer depth registry ancestors)) :
    K Unit (inquiry.answer depth registry ancestors) := by
  cases inquiry with
  | bean name => exact hK.discard (hbean _ name hf)
  | beanOfType name type => exact hK.discard (hK.fetchOfType hbean hf name type)
  | beanByType type =>
    exact hK.discard (hK.bind (hK.fetchNamed hbean type _ hf) fun _ => hK.pure _)
  | namedBean type => exact hK.discard (hK.fetchNamed hbean type _ hf)
  | candidates type => exact hK.discard (hK.namesForType hf type)
  | injection dependency requester converter =>
    exact hK.discard (hK.autowire hbean dependency requester converter _ hf)
  | singletons => exact hK.makeSingletons hbean hf
  | merged name => exact hK.discard (hK.merged hf name)
  | mergedNested name definition containing =>
    exact hK.discard (hK.mergedNested hf name definition containing)
  | creation name definition => exact hK.discard (hcreation name definition rfl)
  | product label maker name processed => exact hK.discard (hK.product hf label maker name processed)
  | dependent name user => exact hdependent name user rfl
  | contained inner outer => exact hcontained inner outer rfl
  | resolution beanName definition converter path raw times =>
    exact hresolution beanName definition converter path raw times rfl

end Minding

/-- Resolving a raw value for its own sake has a property if learning about it has it, and what its
resolution is made of. -/
theorem Work.Composable.resolveBench {K : (α : Type) → Work α → Prop} (hK : Work.Composable K)
    {resolution : Resolution} (hp : resolution.provider.Grants K)
    (hlearn : ∀ steps lesson, K Unit (modify fun world => world.learn resolution.owner steps lesson))
    (htext : ∀ text, K Value (resolution.provider.evaluate text))
    (hnested : ∀ (path : ArgumentPath) (inner : String × Definition),
      K Value (resolution.resolveNested path inner.1 inner.2))
    (path : ArgumentPath) :
    ∀ times : Nat, K (List (Except Failure Value)) (Chain.resolveBench resolution path times)
  | 0 => hK.pure _
  | times + 1 => by
    refine hK.bind hK.get fun world => hK.bind (hK.attempt ?_) fun _ =>
      hK.bind (resolveBench hK hp hlearn htext hnested path times) fun _ => hK.pure _
    exact Resolution.resolve_mem hK hlearn hp _ _ world.bench
      (fun text _ => htext text) fun inner _ path => hnested path inner

/-- Answering an inquiry has a property if serving requests and making nested beans have it. -/
theorem Upkeep.answer {K : (α : Type) → Work α → Prop} (hK : Upkeep family K)
    {registry : Registry} {ancestors : Chain} {depth : Nat} (hstop : Work.Compositional K)
    (hh : (serve depth).Within family K) (hnesting : (serve depth).Nesting family K)
    (hf : family.Has (registry :: ancestors))
    (hbench : ∀ raw, K Unit (modify fun world => { world with bench := raw })) (inquiry : Inquiry) :
    K Unit (inquiry.answer depth registry ancestors) := by
  refine hK.toMinding.answer hh.1 hf inquiry (fun name user _ => hK.noteDependent hf name user)
    (fun inner outer _ => hK.noteContained hf inner outer)
    (fun name definition _ => hh.2 _ name definition hf) ?_
  rintro beanName definition converter path raw times rfl
  refine hK.bind (hbench raw) fun _ =>
    hK.discard (hK.resolveBench ?_ (hK.learn _) ?_ ?_ path times)
  · exact hK.provider_grants hh.1 hf depth
  · exact fun _ => hstop.ofStop _
  · exact hnesting ⟨registry, ancestors, hf⟩ depth _ (by rfl)

/-- Answering an inquiry has a property if serving requests has it. -/
theorem Housekeeping.answer {K : (α : Type) → Work α → Prop} (hK : Housekeeping family K)
    {registry : Registry} {ancestors : Chain} {depth : Nat} (hstop : Work.Compositional K)
    (hh : (serve depth).Within family K) (hf : family.Has (registry :: ancestors))
    (hbench : ∀ raw, K Unit (modify fun world => { world with bench := raw })) (inquiry : Inquiry) :
    K Unit (inquiry.answer depth registry ancestors) :=
  hK.toUpkeep.answer hstop hh (hK.nesting hstop hh) hf hbench inquiry

/-- Answering an inquiry has a property if the pieces have it. -/
theorem Container.answer {K : (α : Type) → Work α → Prop} (hK : Container family K)
    {registry : Registry} {ancestors : Chain} (hf : family.Has (registry :: ancestors))
    (hbench : ∀ raw, K Unit (modify fun world => { world with bench := raw })) (depth : Nat)
    (inquiry : Inquiry) : K Unit (inquiry.answer depth registry ancestors) :=
  hK.toHousekeeping.answer hK.toCompositional (hK.serve_within depth) hf hbench inquiry

end Injector
