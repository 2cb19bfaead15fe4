import Injector.Proofs.Creation.ProductSteps
import Injector.Proofs.Names.Lookup
import Injector.Proofs.Requests.SuccessfulCalls

/-!
# Singletons stay

Once a bean with one shared instance was had, its container keeps the instance, and the product of it if
it is a factory whose product may be shared. Nothing but taking another definition of the name, or taking
the definition out, changes that (`Operation.keepsBean`): no other registration, no alias, and nothing
that is asked, whatever comes of it.

So as long as the definition is left alone, whoever asks by a name that stands for the bean is given the
same value, and its constructor is not called again (`Chain.bean_stable`). Within one request, it makes
no more than one instance, however often the bean is asked for on the way.

A name that stands for the bean has to be one without a mark before it. Marks are taken off a name
before aliases are followed, so an alias with a mark leads nowhere (`not_served_by_marked_alias`).
-/

namespace Injector

variable {family : Family}

/-! ## What a state has of a bean -/

/-- The state has the definition of a name, its instance and its product if the other one has. -/
structure State.KeepsBean (name : String) (state after : State) : Prop where
  defined : state.definitions.contains name = true → after.definitions.contains name = true
  instance_ : ∀ value, state.singletons.find? name = some value →
    after.singletons.find? name = some value
  product : ∀ value, state.products.find? name = some value → after.products.find? name = some value

namespace State.KeepsBean

variable {name : String}

theorem refl (state : State) : state.KeepsBean name state :=
  ⟨id, fun _ => id, fun _ => id⟩

theorem trans {first second third : State} (h : first.KeepsBean name second)
    (h' : second.KeepsBean name third) : first.KeepsBean name third where
  defined hdefined := h'.defined (h.defined hdefined)
  instance_ value hvalue := h'.instance_ value (h.instance_ value hvalue)
  product value hvalue := h'.product value (h.product value hvalue)

/-- What asking leaves of a state has the bean. -/
theorem of_framed {state after : State} (h : state.Framed after) : state.KeepsBean name after where
  defined hdefined := by
    rw [h.sources.1]
    exact hdefined
  instance_ _ := Table.find?_of_prefix h.singletons
  product _ := Table.find?_of_prefix h.products

/-- Dropping what is kept of one bean leaves the others. -/
theorem of_forget {state after : State} {other : String} (hne : name ≠ other)
    (hdefinitions : state.definitions.contains name = true → after.definitions.contains name = true)
    (hsingletons : after.singletons = state.singletons.erase other)
    (hproducts : after.products = state.products.erase other) : state.KeepsBean name after where
  defined := hdefinitions
  instance_ value hvalue := by
    rw [hsingletons, Table.find?_erase, if_neg hne]
    exact hvalue
  product value hvalue := by
    rw [hproducts, Table.find?_erase, if_neg hne]
    exact hvalue

theorem define {settings : Settings} {other : String} {definition : Definition} {state after : State}
    (hne : name ≠ other) (h : State.define settings other definition state = .ok after) :
    state.KeepsBean name after := by
  obtain ⟨-, -, rfl⟩ := State.define_eq_ok_iff.mp h
  refine of_forget hne (fun hdefined => ?_) rfl rfl
  exact (Table.contains_insert_iff _ _ _ _).mpr (Or.inr hdefined)

theorem remove {other : String} {state after : State} (hne : name ≠ other)
    (h : State.remove other state = .ok after) : state.KeepsBean name after := by
  obtain ⟨-, rfl⟩ := State.remove_eq_ok_iff.mp h
  refine of_forget hne (fun hdefined => ?_) rfl rfl
  exact (Table.contains_erase_iff _ _ _).mpr ⟨hne, hdefined⟩

theorem addAlias {settings : Settings} {target shorthand : String} {state after : State}
    (h : State.addAlias settings target shorthand state = .ok after) :
    state.KeepsBean name after := by
  rcases State.addAlias_eq_ok h with ⟨-, rfl⟩ | ⟨-, rfl⟩ | ⟨-, -, -, -, rfl⟩
  · exact ⟨id, fun _ => id, fun _ => id⟩
  · exact refl _
  · exact ⟨id, fun _ => id, fun _ => id⟩

/-- A singleton is only taken under a name that has none. -/
theorem addSingleton {other : String} {value : Value} {state after : State}
    (h : State.addSingleton other value state = .ok after) : state.KeepsBean name after := by
  obtain ⟨hnew, rfl⟩ := State.addSingleton_eq_ok_iff.mp h
  refine ⟨id, fun kept hkept => ?_, fun _ => id⟩
  dsimp only
  rw [Table.find?_insert, if_neg]
  · exact hkept
  · rintro rfl
    rw [Table.contains_of_find? hkept] at hnew
    cases hnew

end State.KeepsBean

/-! ## Operations -/

/-- The operation takes a definition of the name in the container, or takes it out. One that is refused
does neither. -/
def Operation.Redefines (world : World) (index : Nat) (name : String) : Operation family → Prop
  | .register member (.definition other definition) | .register member (.holder other _ definition) =>
    member.registry.index = index ∧ other = name ∧
      ∃ after, State.define member.registry.settings other definition (world.state index) = .ok after
  | .register member (.removal other) =>
    member.registry.index = index ∧ other = name ∧
      ∃ after, State.remove other (world.state index) = .ok after
  | _ => False

/-- Registering in one step keeps a bean if what it makes of the state does. -/
theorem Work.register_keepsBean {registry : Registry} {change : State → Except Failure State}
    {world : World} {index : Nat} {name : String}
    (h : registry.index = index → ∀ after, change (world.state index) = .ok after →
      (world.state index).KeepsBean name after) :
    (world.state index).KeepsBean name ((Work.register registry change world).2.state index) := by
  rw [Work.register_apply]
  cases hchange : change (world.state registry.index) with
  | error failure => exact .refl _
  | ok after =>
    dsimp only
    rw [World.state_withState]
    split
    · next he =>
      subst he
      exact h rfl after hchange
    · exact .refl _

/-- **An operation that does not redefine a bean keeps it.** -/
theorem Operation.keepsBean {world : World} (hundefined : world.AliasesUndefined) {index : Nat}
    {name : String} (operation : Operation family) (h : ¬ operation.Redefines world index name) :
    (world.state index).KeepsBean name ((operation.next world).state index) := by
  cases operation with
  | inquire member depth inquiry =>
    exact .of_framed ((inquiry.advancing member depth world hundefined).framed index)
  | register member registration =>
    have hdefine : ∀ other definition,
        ¬(member.registry.index = index ∧ other = name ∧ ∃ after,
          State.define member.registry.settings other definition (world.state index) = .ok after) →
        (world.state index).KeepsBean name
          ((member.registry.define other definition world).2.state index) := by
      intro other definition hnot
      refine Work.register_keepsBean fun hindex after hok => .define ?_ hok
      rintro rfl
      exact hnot ⟨hindex, rfl, after, hok⟩
    have haddAlias : ∀ (world : World) target shorthand, (world.state index).KeepsBean name
        ((member.registry.addAlias target shorthand world).2.state index) :=
      fun world target shorthand => Work.register_keepsBean fun _ _ hok => .addAlias hok
    cases registration with
    | definition other definition => exact hdefine other definition h
    | shorthand target shorthand => exact haddAlias world target shorthand
    | singleton other value =>
      exact Work.register_keepsBean fun _ _ hok => .addSingleton hok
    | removal other =>
      refine Work.register_keepsBean fun hindex after hok => .remove ?_ hok
      rintro rfl
      exact h ⟨hindex, rfl, after, hok⟩
    | holder other shorthands definition =>
      -- the aliases are taken one after the other once the definition is
      have haliases : ∀ world : World, (world.state index).KeepsBean name
          (((shorthands.forM fun shorthand => member.registry.addAlias other shorthand) world).2.state
            index) :=
        (Work.compositional_keeps (R := fun world after =>
          (world.state index).KeepsBean name (after.state index)) (fun _ => .refl _)
          fun _ _ _ => .trans).forM fun shorthand _ world => haddAlias world other shorthand
      have hfirst := hdefine other definition h
      show (world.state index).KeepsBean name
        ((member.registry.defineWithAliases other shorthands definition world).2.state index)
      unfold Registry.defineWithAliases
      rw [Work.bind_apply]
      rcases hrun : member.registry.define other definition world with ⟨stop | _, after⟩ <;>
        rw [hrun] at hfirst
      · exact hfirst
      · exact hfirst.trans (haliases after)

/-- For a bean whose instance is kept, asking calls no constructor. -/
theorem World.Advances.attempts_eq {world after : World} (h : world.Advances family after) {index : Nat}
    {name : String} {value : Value} (hkept : (world.state index).singletons.find? name = some value) :
    attempts index name after.journal = attempts index name world.journal := by
  obtain ⟨new, hjournal, hfates⟩ := h.fates
  rw [hjournal, attempts_append]
  cases hfates index name with
  | unchanged _ hidle =>
    rw [hidle (Or.inl (Table.contains_of_find? hkept))]
    rfl
  | made _ hnone =>
    rw [hkept] at hnone
    cases hnone

theorem Operation.attempts_eq {world : World} (hundefined : world.AliasesUndefined) {index : Nat}
    {name : String} {value : Value} (hkept : (world.state index).singletons.find? name = some value)
    (operation : Operation family) :
    attempts index name (operation.next world).journal = attempts index name world.journal := by
  cases operation with
  | register member registration =>
    exact congrArg (attempts index name) (Registry.take_journal member.registry registration world)
  | inquire member depth inquiry =>
    exact (inquiry.advancing member depth world hundefined).attempts_eq hkept

/-! ## Continuations -/

/-- The world after further operations. -/
def World.followed (world : World) (operations : List (Operation family)) : World :=
  operations.foldl (fun world operation => operation.next world) world

theorem World.followed_concat (world : World) (operations : List (Operation family))
    (operation : Operation family) :
    world.followed (operations ++ [operation]) = operation.next (world.followed operations) := by
  unfold followed
  rw [List.foldl_append, List.foldl_cons, List.foldl_nil]

/-- What all of the operations keep is kept by them together. -/
theorem World.followed_keeps {R : World → World → Prop} (hrefl : ∀ world, R world world)
    (htrans : ∀ a b c, R a b → R b c → R a c) {operations : List (Operation family)}
    (h : ∀ operation ∈ operations, operation.perform.Keeps R) (world : World) :
    R world (world.followed operations) := by
  induction operations using List.reverseRecOn with
  | nil => exact hrefl world
  | append_singleton operations operation ih =>
    rw [World.followed_concat]
    have hdone := ih fun other hmem => h other (List.mem_append_left _ hmem)
    exact htrans _ _ _ hdone (h operation (List.mem_append_right _ (List.mem_singleton_self _)) _)

theorem Reachable.followed {world : World} (h : Reachable family world)
    (operations : List (Operation family)) : Reachable family (world.followed operations) := by
  induction operations using List.reverseRecOn with
  | nil => exact h
  | append_singleton operations operation ih =>
    rw [World.followed_concat]
    exact ih.next operation

/-- None of the operations redefines the bean when its turn comes. -/
def World.LeftAlone (world : World) (index : Nat) (name : String)
    (operations : List (Operation family)) : Prop :=
  ∀ done operation, done ++ [operation] <+: operations →
    ¬ operation.Redefines (world.followed done) index name

/-- Operations that redefine a bean in no world leave it alone. -/
theorem World.leftAlone_of_forall {world : World} {index : Nat} {name : String}
    {operations : List (Operation family)}
    (h : ∀ operation ∈ operations, ∀ world, ¬ operation.Redefines world index name) :
    world.LeftAlone index name operations :=
  fun _ operation hdone => h operation (hdone.subset (List.mem_append_right _ (List.mem_singleton_self _))) _

/-- **A bean that is left alone is kept, and its constructor is not called.** -/
theorem Reachable.followed_keepsBean {world : World} (h : Reachable family world) {index : Nat}
    {name : String} {value : Value} (hkept : (world.state index).singletons.find? name = some value)
    {operations : List (Operation family)} (halone : world.LeftAlone index name operations) :
    (world.state index).KeepsBean name ((world.followed operations).state index) ∧
      attempts index name (world.followed operations).journal =
        attempts index name world.journal := by
  induction operations using List.reverseRecOn with
  | nil => exact ⟨.refl _, rfl⟩
  | append_singleton operations operation ih =>
    obtain ⟨hbean, hattempts⟩ := ih fun done last hdone =>
      halone done last (hdone.trans (List.prefix_append _ _))
    have hundefined := (h.followed operations).aliasesUndefined
    rw [World.followed_concat]
    refine ⟨hbean.trans (operation.keepsBean hundefined (halone _ _ (List.prefix_refl _))), ?_⟩
    rw [operation.attempts_eq hundefined (hbean.instance_ value hkept), hattempts]

/-! ## What is given for an instance -/

/-- The value is what those are given who ask for the instance by its plain name: the instance itself, or
its product, which is kept if it may be shared. -/
def State.Gives (state : State) (name : String) (instance_ value : Value) : Prop :=
  (instance_.factory? = none ∧ value = instance_) ∨
    ∃ label maker, instance_.factory? = some (label, maker) ∧
      (maker.singleton = true → state.products.find? name = some value)

section

variable {registry : Registry} {name : String} {world after : World} {value : Value}

theorem productOf_eq_ok {label : BeanLabel} {maker : Factory Value} {processed : Bool}
    {instance_ : Value} (hshared : maker.singleton = true)
    (hkept : (world.state registry.index).singletons.find? name = some instance_)
    (h : productOf registry label maker name processed world = (.ok value, after)) :
    (after.state registry.index).products.find? name = some value := by
  rcases productOf_eq_ok_cases h with ⟨hstates, hproduct, -⟩ | ⟨made, -, hproduct⟩
  · unfold World.state
    rw [hstates]
    exact hproduct
  · exact hproduct hshared instance_ hkept

/-- What is exposed of a kept instance is what the container gives from then on. -/
theorem exposed_eq_ok {written : String} {processed : Bool} {instance_ : Value}
    (hplain : asksForFactory written = false)
    (hkept : (world.state registry.index).singletons.find? name = some instance_)
    (h : exposed registry instance_ written name processed world = (.ok value, after)) :
    (after.state registry.index).Gives name instance_ value := by
  unfold exposed at h
  rw [hplain, if_neg Bool.false_ne_true] at h
  cases hfactory : instance_.factory? with
  | none =>
    rw [hfactory] at h
    cases h
    exact Or.inl ⟨hfactory, rfl⟩
  | some factory =>
    obtain ⟨label, maker⟩ := factory
    rw [hfactory] at h
    exact Or.inr ⟨label, maker, hfactory, fun hshared => productOf_eq_ok hshared hkept h⟩

/-- What the container gives for a kept instance is exposed of it. -/
theorem exposed_of_gives {written : String} {processed : Bool} {instance_ : Value}
    (hplain : asksForFactory written = false)
    (hkept : (world.state registry.index).singletons.find? name = some instance_)
    (hgives : (world.state registry.index).Gives name instance_ value)
    (hshared : ∀ label maker, instance_.factory? = some (label, maker) → maker.singleton = true) :
    ∃ after, exposed registry instance_ written name processed world = (.ok value, after) := by
  unfold exposed
  rw [hplain, if_neg Bool.false_ne_true]
  rcases hgives with ⟨hfactory, rfl⟩ | ⟨label, maker, hfactory, hproduct⟩
  · rw [hfactory]
    exact ⟨world, rfl⟩
  · rw [hfactory]
    have hshared := hshared label maker hfactory
    dsimp only
    unfold productOf
    rw [Work.state_bind_apply]
    rw [hshared, if_pos rfl, hkept, Work.bind_apply_ok (sharedProduct_kept _ (hproduct hshared))]
    exact ⟨_, rfl⟩

/-- What is had as a singleton is kept. -/
theorem singletonOr_eq_ok {create : Work Value}
    (h : singletonOr registry name create world = (.ok value, after)) :
    (after.state registry.index).singletons.find? name = some value := by
  unfold singletonOr at h
  rw [Work.state_bind_apply] at h
  cases hkept : (world.state registry.index).singletons.find? name with
  | some shared =>
    rw [hkept] at h
    cases h
    exact hkept
  | none =>
    rw [hkept] at h
    obtain ⟨made, between, -, hkeep⟩ := Work.bind_eq_ok h
    cases hkeep
    rw [World.state_withState, if_pos rfl, Table.find?_insertNew, if_pos rfl]
    rfl

end

/-! ## Having a bean, and having it again -/

variable {world after : World} {name : String} {value : Value} {depth : Nat}

/-- A bean with one shared instance is had by having its instance kept and exposing it. -/
theorem Chain.bean_held (member : family.Member) {written : String} {merged : Merged}
    (hsought : world.sought member.registry written = name)
    (hdefined : (world.state member.registry.index).definitions.contains name = true)
    (hmerged : world.mergedIn member.chain name = .ok merged)
    (hscope : merged.definition.isSingleton = true)
    (h : Chain.bean depth member.chain written world = (.ok value, after)) :
    ∃ instance_ processed before between, world.Grows before ∧
      (before.state member.registry.index).singletons.find? name = some instance_ ∧
      exposed member.registry instance_ written name processed before = (.ok value, between) ∧
      after = between.noting (.served member.registry.index written value) := by
  obtain ⟨lower, between, -, hfetch, rfl⟩ := bean_eq_ok h
  cases hkept : (world.state member.registry.index).singletons.find? name with
  | some shared =>
    obtain ⟨processed, heq⟩ := fetchBean_of_kept (serve lower) lower member.ancestors hsought hkept
    exact ⟨shared, processed, world, between, .refl world, hkept, heq ▸ hfetch, rfl⟩
  | none =>
    obtain ⟨definition, first, second, instance_, third, hfirst, hsecond, hthird, hexposed⟩ :=
      fetchBean_eq_ok hsought hkept hdefined hfetch
    obtain ⟨found, hfound, rfl, -⟩ := Work.takeMerged_eq_ok hfirst
    cases hmerged.symm.trans hfound
    have hK := World.container_grows family
    have h₁ := Work.Keeps.run (hK.merged member.has name) hfirst
    have h₂ := Work.Keeps.run (hK.realizePrerequisites (hK.serve_within lower).1 member.has name
      merged.definition) hsecond
    have h₃ := Work.Keeps.run (hK.instanceOf (hK.serve_within lower)
      (hK.nesting hK.toCompositional (hK.serve_within lower)) member.has lower name
      merged.definition) hthird
    unfold instanceOf at hthird
    rw [if_pos hscope] at hthird
    exact ⟨instance_, _, third, between, (h₁.trans h₂).trans h₃, singletonOr_eq_ok hthird, hexposed, rfl⟩

/-- **Once a bean with one shared instance was had, the container keeps the instance**, by whatever name
for it it was asked for. -/
theorem Chain.bean_holds (member : family.Member) {written : String} {merged : Merged}
    (hsought : world.sought member.registry written = name)
    (hdefined : (world.state member.registry.index).definitions.contains name = true)
    (hmerged : world.mergedIn member.chain name = .ok merged)
    (hscope : merged.definition.isSingleton = true)
    (h : Chain.bean depth member.chain written world = (.ok value, after)) :
    (after.state member.registry.index).singletons.contains name = true := by
  obtain ⟨instance_, processed, before, between, -, hkept, hexposed, rfl⟩ :=
    bean_held member hsought hdefined hmerged hscope h
  have hgrows : before.Grows between :=
    ((World.container_grows family).exposed member.has instance_ written name processed).run hexposed
  exact Table.contains_of_find? (Table.find?_of_prefix (hgrows.1 _).singletons hkept)

/-- **Once a bean with one shared instance was had, the container keeps the instance and gives for it
what was had.** -/
theorem Chain.bean_kept (hundefined : world.AliasesUndefined) (member : family.Member) {merged : Merged}
    (hplain : asksForFactory name = false)
    (hdefined : (world.state member.registry.index).definitions.contains name = true)
    (hmerged : world.mergedIn member.chain name = .ok merged)
    (hscope : merged.definition.isSingleton = true)
    (h : Chain.bean depth member.chain name world = (.ok value, after)) :
    ∃ instance_, (after.state member.registry.index).singletons.find? name = some instance_ ∧
      (after.state member.registry.index).Gives name instance_ value := by
  have hsought : world.sought member.registry name = name := by
    unfold World.sought
    rw [plainName_of_plain hplain, hundefined.canonicalName hdefined]
  obtain ⟨instance_, processed, before, between, -, hkept, hexposed, rfl⟩ :=
    bean_held member hsought hdefined hmerged hscope h
  have hgrows : before.Grows between :=
    ((World.container_grows family).exposed member.has instance_ name name processed).run hexposed
  have hgives : (between.state member.registry.index).Gives name instance_ value :=
    exposed_eq_ok hplain hkept hexposed
  exact ⟨instance_, Table.find?_of_prefix (hgrows.1 _).singletons hkept, hgives⟩

/-- **Whoever asks by a name that stands for the bean is given what the container gives for it.** -/
theorem Chain.bean_of_gives (member : family.Member) {written : String} {instance_ : Value}
    (hplain : asksForFactory written = false)
    (hcanonical : (world.state member.registry.index).canonicalName written = name)
    (hkept : (world.state member.registry.index).singletons.find? name = some instance_)
    (hgives : (world.state member.registry.index).Gives name instance_ value)
    (hshared : ∀ label maker, instance_.factory? = some (label, maker) → maker.singleton = true)
    (depth : Nat) : (Chain.bean (depth + 1) member.chain written world).1 = .ok value := by
  have hfetch : ∃ after, fetchBean (serve depth) depth member.registry member.ancestors written world =
      (.ok value, after) := by
    obtain ⟨processed, heq⟩ := fetchBean_of_kept (serve depth) depth member.ancestors
      (by rw [plainName_of_plain hplain, hcanonical]) hkept
    rw [heq]
    exact exposed_of_gives hplain hkept hgives hshared
  obtain ⟨after, hrun⟩ := hfetch
  show ((fetchBean (serve depth) depth member.registry member.ancestors written >>= fun value =>
    Work.note (.served member.registry.index written value) >>= fun _ => pure value) world).1 = _
  rw [Work.bind_apply_ok hrun]
  rfl

/-- **However often a bean with one shared instance is asked for while another request is served, its
constructor makes one instance at most.** -/
theorem World.Advances.instances_le (hadvances : world.Advances family after)
    (hkeeping : Keeping family world after) (hundefined : world.AliasesUndefined)
    (member : family.Member) {merged : Merged}
    (hdefined : (world.state member.registry.index).definitions.contains name = true)
    (hmerged : world.mergedIn member.chain name = .ok merged)
    (hscope : merged.definition.isSingleton = true) :
    (instances member.registry.index name after.journal).length ≤
      (instances member.registry.index name world.journal).length + 1 := by
  obtain ⟨new, hjournal, hfates⟩ := hadvances.fates
  rw [hjournal, instances_append, List.length_append, Nat.add_comm]
  refine Nat.add_le_add_left ?_ _
  cases hfates member.registry.index name with
  | made _ _ _ _ honce => exact Nat.le_of_eq (by rw [honce, List.length_singleton])
  | unchanged _ _ hmade =>
    rcases hmade with hnothing | ⟨now, hkept, hprototype⟩
    · rw [hnothing]
      exact Nat.zero_le 1
    · -- what is kept afterwards is what merging gave before
      obtain ⟨_, hdescent⟩ := hkeeping.descends member name now hkept
      obtain ⟨_, hdescent'⟩ := ((Keeping.refl family world).toRestsOn.mergedIn_descends _
        member.chain_has name merged hmerged).descent
      have hcanonical : world.canonicalIn member.chain name = name := hundefined.canonicalName hdefined
      rw [hcanonical] at hdescent'
      rw [scope_eq_of_bare (hdescent.unique hdescent').2, hscope] at hprototype
      cases hprototype

/-- **A bean with one shared instance stays.** Once it was had, as long as its definition is left alone,
its constructor is not called again, its name stands for itself, and whoever asks by a name without a
mark that stands for it is given the same value: that of its product if it is a factory, provided that
the product may be shared. And within one request, of whatever bean, its constructor makes one instance
at most. -/
theorem Chain.bean_stable (h : Reachable family world) (member : family.Member) {merged : Merged}
    (hplain : asksForFactory name = false)
    (hdefined : (world.state member.registry.index).definitions.contains name = true)
    (hmerged : world.mergedIn member.chain name = .ok merged)
    (hscope : merged.definition.isSingleton = true) :
    (∀ depth value after, Chain.bean depth member.chain name world = (.ok value, after) →
      ∀ operations : List (Operation family),
        after.LeftAlone member.registry.index name operations →
        attempts member.registry.index name (after.followed operations).journal =
          attempts member.registry.index name after.journal ∧
        ((after.followed operations).state member.registry.index).canonicalName name = name ∧
        ((∀ instance_ label maker,
            (after.state member.registry.index).singletons.find? name = some instance_ →
            instance_.factory? = some (label, maker) → maker.singleton = true) →
          ∀ written later, asksForFactory written = false →
            ((after.followed operations).state member.registry.index).canonicalName written = name →
            (Chain.bean (later + 1) member.chain written (after.followed operations)).1 = .ok value)) ∧
      ∀ (other : family.Member) depth requested,
        (instances member.registry.index name
            (Chain.bean depth other.chain requested world).2.journal).length ≤
          (instances member.registry.index name world.journal).length + 1 := by
  have hundefined := h.aliasesUndefined
  have hbean : ∀ (other : family.Member) depth requested,
      world.Advances family (Chain.bean depth other.chain requested world).2 :=
    fun other depth requested =>
      (serve_advancing family depth).1 _ requested other.chain_has world hundefined
  constructor
  · intro depth value after hok operations halone
    have hadvances := hbean member depth name
    rw [hok] at hadvances
    have hafter : Reachable family after := by
      have hnext := h.next (.inquire member depth (.bean name))
      unfold Operation.next at hnext
      rw [show (Operation.inquire member depth (.bean name)).perform =
        discard (Chain.bean depth member.chain name) from rfl, Work.discard_apply, hok] at hnext
      exact hnext
    obtain ⟨instance_, hkept, hgives⟩ :=
      Chain.bean_kept hundefined member hplain hdefined hmerged hscope hok
    obtain ⟨hlater, hattempts⟩ := hafter.followed_keepsBean hkept halone
    have hdefined' : (after.state member.registry.index).definitions.contains name = true := by
      rw [(hadvances.framed _).sources.1]
      exact hdefined
    refine ⟨hattempts, (hafter.followed operations).aliasesUndefined.canonicalName
      (hlater.defined hdefined'), fun hshared written later hunmarked hcanonical => ?_⟩
    refine Chain.bean_of_gives member hunmarked hcanonical (hlater.instance_ _ hkept) ?_
      (fun label maker => hshared instance_ label maker hkept) later
    exact hgives.imp id fun ⟨label, maker, hfactory, hproduct⟩ =>
      ⟨label, maker, hfactory, fun hsingleton => hlater.product _ (hproduct hsingleton)⟩
  · intro other depth requested
    refine (hbean other depth requested).instances_le ?_ hundefined member hdefined hmerged hscope
    exact ((World.container_keeping family world).serve_within depth).1 _ requested other.chain_has world
      (.refl family world)

/-! ### A product that stays -/

/-- A class of factories whose product is the text `made` and may be shared. -/
def makerRegistry : Registry where
  index := 0
  classes := ClassTable.register {} "F"
    { construct := Plan.constructor (.factory "F" (.production (.always (.text "made"))) none true) [] }

/-- The bean `n` is such a factory. -/
def makerOperations : List (Operation (Family.lone makerRegistry)) :=
  [.register (Registry.lone makerRegistry) (.definition "n" { className := some "F" })]

/-- The product of `n` is had once more by a name that is bound to it later. -/
theorem bean_stable_maker :
    ∃ value after, Chain.bean 1 (Registry.lone makerRegistry).chain "n" (World.after makerOperations) =
        (.ok value, after) ∧
      (Chain.bean 1 (Registry.lone makerRegistry).chain "m"
        (after.followed [.register (Registry.lone makerRegistry) (.shorthand "n" "m")])).1 =
          .ok value := by
  have hscope : ((World.after makerOperations).mergedIn (Registry.lone makerRegistry).chain
      "n").toOption.map (fun merged => merged.definition.isSingleton) = some true := by decide +kernel
  cases hmerged : (World.after makerOperations).mergedIn (Registry.lone makerRegistry).chain "n" with
  | error failure =>
    rw [hmerged] at hscope
    cases hscope
  | ok merged =>
    rw [hmerged] at hscope
    have hsingleton : merged.definition.isSingleton = true := Option.some.inj hscope
    have hstable := (Chain.bean_stable ⟨makerOperations, rfl⟩ (Registry.lone makerRegistry) (by decide)
      (by decide +kernel) hmerged hsingleton).1
    have hok : (Chain.bean 1 (Registry.lone makerRegistry).chain "n"
        (World.after makerOperations)).1.isOk = true := by decide +kernel
    have hmaker : (((Chain.bean 1 (Registry.lone makerRegistry).chain "n"
        (World.after makerOperations)).2.state 0).singletons.find? "n").bind Value.factory? |>.all
          (fun factory => factory.2.singleton) := by decide +kernel
    have hcanonical : (((Chain.bean 1 (Registry.lone makerRegistry).chain "n"
        (World.after makerOperations)).2.followed
          [.register (Registry.lone makerRegistry) (.shorthand "n" "m")]).state 0).canonicalName "m" =
        "n" := by decide +kernel
    rcases hrun : Chain.bean 1 (Registry.lone makerRegistry).chain "n"
      (World.after makerOperations) with ⟨stop | value, after⟩ <;> rw [hrun] at hok hmaker hcanonical
    · cases hok
    · refine ⟨value, after, rfl, ?_⟩
      refine (hstable 1 value after hrun _ (World.leftAlone_of_forall ?_)).2.2 ?_ "m" 0 (by decide)
        hcanonical
      · intro operation hmem
        rw [List.mem_singleton.mp hmem]
        exact fun _ => id
      · intro instance_ label maker hkept hfactory
        dsimp only at hmaker
        rw [show (after.state 0).singletons.find? "n" = some instance_ from hkept] at hmaker
        rw [Option.bind_some, hfactory] at hmaker
        exact hmaker

/-! ### An alias with a mark -/

/-- The bean `n` is a plain bean. -/
def plainOperations : List (Operation (Family.lone plainRegistry)) :=
  [.register (Registry.lone plainRegistry) (.definition "n" { className := some "P" })]

/-- The alias `&x` stands for `n`, which was had, and no bean is had by it: what is looked up is `x`. -/
theorem not_served_by_marked_alias :
    ¬ ∀ (value : Value) (after : World) (operations : List (Operation (Family.lone plainRegistry))),
        Chain.bean 1 (Registry.lone plainRegistry).chain "n" (World.after plainOperations) =
          (.ok value, after) →
        after.LeftAlone 0 "n" operations →
        ∀ written, ((after.followed operations).state 0).canonicalName written = "n" →
          ∃ later, (Chain.bean later (Registry.lone plainRegistry).chain written
            (after.followed operations)).1 = .ok value := by
  intro h
  have hok : (Chain.bean 1 (Registry.lone plainRegistry).chain "n"
      (World.after plainOperations)).1.isOk = true := by decide +kernel
  have hcanonical : (((Chain.bean 1 (Registry.lone plainRegistry).chain "n"
      (World.after plainOperations)).2.followed
        [.register (Registry.lone plainRegistry) (.shorthand "n" "&x")]).state 0).canonicalName "&x" =
      "n" := by decide +kernel
  have hunknown : (((Chain.bean 1 (Registry.lone plainRegistry).chain "n"
      (World.after plainOperations)).2.followed
        [.register (Registry.lone plainRegistry) (.shorthand "n" "&x")]).state 0).containsLocal "&x" =
      false := by decide +kernel
  rcases hrun : Chain.bean 1 (Registry.lone plainRegistry).chain "n" (World.after plainOperations) with
    ⟨stop | value, after⟩ <;> rw [hrun] at hok hcanonical hunknown
  · cases hok
  · obtain ⟨later, hlater⟩ := h value after _ hrun (World.leftAlone_of_forall (fun operation hmem => by
      rw [List.mem_singleton.mp hmem]
      exact fun _ => id)) "&x" hcanonical
    cases later with
    | zero => cases hlater
    | succ later =>
      have hmissing : ∀ world : World, (world.state plainRegistry.index).containsLocal "&x" = false →
          (Chain.bean (later + 1) [plainRegistry] "&x" world).1 ≠ .ok value := by
        intro world hunknown
        rw [World.bean_of_not_containsLocal_last hunknown]
        exact nofun
      exact hmissing _ hunknown hlater

end Injector
