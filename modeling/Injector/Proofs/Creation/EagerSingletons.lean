import Injector.Proofs.Autowiring.ByType
import Injector.Proofs.Creation.Processing

/-!
# Making the singletons

A container can be told to make its singletons: one after the other, in the order of the definitions, each
bean with one shared instance is had that is not lazy (`World.isEager`). It is asked for by its own name, or,
if its class is one of factories, by that name with the mark, so that the factory alone is had.

If nothing fails, an instance of each of them is kept (`Chain.makeSingletons_complete`), and from then on,
whatever is asked in between, telling the container once more calls no constructor and keeps no further
instance (`Chain.makeSingletons_still`). For a bean of a class of factories, no product is made but for what
the bean needs itself: its prerequisites, and the beans its inputs are made of (`Chain.bean_needs`).

This is about names without a mark. A definition under a name with a mark is never had by its name.
-/

namespace Injector

variable {family : Family}

/-! ## What is noted -/

/-- The event is no call of a constructor. -/
def Event.NoCall (event : Event) : Prop :=
  ∀ construction, event ≠ .constructed construction

/-- The event is not that a product was made. -/
def Event.NoProduct (event : Event) : Prop :=
  ∀ label product, event ≠ .produced label product

/-- Nothing but such events was added to a journal. -/
def Adds (kind : Event → Prop) (journal after : List Event) : Prop :=
  ∃ new, after = new ++ journal ∧ ∀ event ∈ new, kind event

theorem journalRelation_adds (kind : Event → Prop) : JournalRelation kind (Adds kind) where
  refl _ := ⟨[], rfl, fun _ hmem => nomatch hmem⟩
  trans := by
    rintro journal _ _ ⟨new, rfl, hnew⟩ ⟨new', rfl, hnew'⟩
    refine ⟨new' ++ new, (List.append_assoc _ _ _).symm, fun event hmem => ?_⟩
    exact (List.mem_append.mp hmem).elim (hnew' event) (hnew event)
  cons event journal hevent := ⟨[event], rfl, List.forall_mem_singleton.mpr hevent⟩

/-! ## Work that makes no singleton -/

/-- No singleton was kept, and no constructor called. -/
structure World.Still (world after : World) : Prop where
  singletons : ∀ index, (after.state index).singletons = (world.state index).singletons
  journal : Adds Event.NoCall world.journal after.journal

namespace World.Still

theorem refl (world : World) : world.Still world :=
  ⟨fun _ => rfl, (journalRelation_adds _).refl _⟩

theorem trans (first second third : World) (h : first.Still second) (h' : second.Still third) :
    first.Still third where
  singletons index := (h'.singletons index).trans (h.singletons index)
  journal := (journalRelation_adds _).trans _ _ _ h.journal h'.journal

/-- A note that is no call of a constructor. -/
theorem noting (world : World) {event : Event} (h : event.NoCall) : world.Still (world.noting event) :=
  ⟨fun _ => rfl, (journalRelation_adds _).cons _ _ h⟩

theorem keepMerged (world : World) (additions : List (Nat × String × Definition)) :
    world.Still (world.keepMerged additions) where
  singletons := World.singletons_keepMerged additions world
  journal := by
    rw [World.journal_keepMerged]
    exact (journalRelation_adds _).refl _

/-- Keeping a product. -/
theorem keepProduct (world : World) (index : Nat) (name : String) (product : Value) :
    world.Still (world.withState index { world.state index with
      products := (world.state index).products.insertNew name product }) where
  singletons other := by
    rw [World.state_withState]
    split
    · next he => rw [he]
    · rfl
  journal := (journalRelation_adds _).refl _

end World.Still

/-- **Merging and making products keep no singleton and call no constructor.** -/
theorem minding_still (family : Family) : Minding family fun _ work => work.Keeps World.Still where
  toComposable := (Work.compositional_keeps World.Still.refl World.Still.trans).toComposable
  merged _ _ := Work.keeps_takeMerged World.Still.refl fun world merged _ =>
    .keepMerged world merged.additions
  mergedNested _ _ _ _ := Work.keeps_takeMerged World.Still.refl fun world merged _ =>
    .keepMerged world merged.additions
  product _ _ _ _ _ := by
    refine Work.keeps_productOf World.Still.refl World.Still.trans ?_ ?_ ?_
    · exact Work.keeps_newProduct World.Still.trans
        (fun world _ _ => ⟨fun _ => rfl, (World.Still.refl world).journal⟩)
        fun world _ => .noting world nofun
    · exact fun world product => .keepProduct world _ _ product
    · exact fun world _ _ => .noting world nofun

/-- **Asking for a bean of which an instance is kept keeps no singleton and calls no constructor**, whatever
comes of it. -/
theorem Chain.bean_still {member : family.Member} {world : World} {written name : String}
    (hsought : world.sought member.registry written = name)
    (hkept : (world.state member.registry.index).singletons.contains name = true) :
    ∀ depth : Nat, world.Still (Chain.bean depth member.chain written world).2
  | 0 => .refl world
  | depth + 1 => by
    have hK := minding_still family
    obtain ⟨shared, hshared⟩ := (Table.contains_iff_find? _ _).mp hkept
    obtain ⟨processed, heq⟩ :=
      fetchBean_of_kept (serve depth) depth member.ancestors hsought hshared
    show world.Still ((fetchBean (serve depth) depth member.registry member.ancestors written >>= fun value =>
      Work.note (.served member.registry.index written value) >>= fun _ => pure value) world).2
    refine Work.bind_preserves (P := world.Still) ?_ fun value after _ hafter => ?_
    · rw [heq]
      exact hK.exposed member.has shared written name processed world
    · exact World.Still.trans _ _ _ hafter (.noting after nofun)

/-! ## What is to be made -/

namespace World

/-- Whether a bean is one with a shared instance that is not lazy. -/
def isEager (world : World) (chain : Chain) (name : String) : Bool :=
  (bareOf (world.mergedIn chain name)).any fun merged => merged.isSingleton && !merged.lazy

/-- Whether the class of a bean is one of factories. -/
def isOfFactories (world : World) (registry : Registry) (ancestors : Chain) (name : String) : Bool :=
  (world.classOf (registry :: ancestors) name).any fun className =>
    (registry.classes.productType? className).isSome

/-- The name by which the instance of a bean is asked for when the singletons are made. -/
def instanceName (world : World) (registry : Registry) (ancestors : Chain) (name : String) : String :=
  if world.isOfFactories registry ancestors name then factoryMark ++ name else name

end World

section

variable {base world : World} {member : family.Member} {name : String}

/-- Making the singleton of a name is merging it, which moves nothing, and then asking for its instance if it is
to be made, as the base says. -/
theorem Chain.makeSingleton_apply (hkeeping : World.Keeping family base world) (depth : Nat) :
    (base.isEager member.chain name = false ∧ ∃ failure,
      Chain.makeSingleton depth member.registry member.ancestors name world =
        (.error (.failure failure), world)) ∨
    ∃ first, World.Keeping family base first ∧ world.Still first ∧ first.journal = world.journal ∧
      Chain.makeSingleton depth member.registry member.ancestors name world =
        (if base.isEager member.chain name then
          discard (Chain.bean depth member.chain (base.instanceName member.registry member.ancestors name))
        else pure ⟨⟩) first := by
  have hbare := hkeeping.toRestsOn.bareOf_mergedIn member.chain_has name
  unfold Chain.makeSingleton
  rw [Work.bind_apply]
  unfold mergedDefinition
  rw [Work.takeMerged_apply]
  unfold World.instanceName World.isOfFactories World.classOf World.isEager
  unfold Family.Member.chain at *
  rw [← hbare]
  cases hmerged : world.mergedIn (member.registry :: member.ancestors) name with
  | error failure => exact .inl ⟨rfl, failure, rfl⟩
  | ok merged =>
    have hderived := (hkeeping.toRestsOn.mergedIn_descends _ member.chain_has name merged hmerged).derived
    exact .inr ⟨world.keepMerged merged.additions, hkeeping.keepMerged _ hderived, .keepMerged _ _,
      World.journal_keepMerged _ _, rfl⟩

/-- A bean that is to be made is one with a shared instance, however long work went on since. -/
theorem World.Keeping.mergedIn_of_isEager (hkeeping : World.Keeping family base world)
    (heager : base.isEager member.chain name = true) :
    ∃ merged, world.mergedIn member.chain name = .ok merged ∧ merged.definition.isSingleton = true := by
  unfold World.isEager at heager
  rw [← hkeeping.toRestsOn.bareOf_mergedIn member.chain_has] at heager
  obtain ⟨bare, hbare, heager⟩ := (Option.any_eq_true _ _).mp heager
  obtain ⟨merged, hmerged, rfl⟩ := World.exists_of_bareOf hbare
  exact ⟨merged, hmerged, (Bool.and_eq_true_iff.mp heager).1⟩

end

/-! ## The turn of one bean -/

section

variable {base world after : World} {member : family.Member} {name : String}
  (hkeeping : World.Keeping family base world) (hundefined : base.AliasesUndefined)
  (hplain : asksForFactory name = false)
  (hdefined : (base.state member.registry.index).definitions.contains name = true)

include hkeeping hundefined hplain hdefined

/-- By whichever name the instance of a bean is asked for, with the mark or without, its container looks for
the bean. -/
theorem World.Keeping.sought_instanceName :
    world.sought member.registry (base.instanceName member.registry member.ancestors name) = name := by
  have hname : plainName (base.instanceName member.registry member.ancestors name) = name := by
    unfold World.instanceName
    split
    · rw [plainName_factoryMark, plainName_of_plain hplain]
    · exact plainName_of_plain hplain
  unfold World.sought
  rw [hname, World.canonicalName_congr (hkeeping.sources _).2, hundefined.canonicalName hdefined]

/-- **Of a bean that was to be made and whose turn came without a failure, an instance is kept.** -/
theorem Chain.makeSingleton_holds (heager : base.isEager member.chain name = true) {depth : Nat}
    (h : Chain.makeSingleton depth member.registry member.ancestors name world = (.ok ⟨⟩, after)) :
    (after.state member.registry.index).singletons.contains name = true := by
  rcases makeSingleton_apply hkeeping depth with ⟨hnot, -⟩ | ⟨first, hfirst, -, -, hrun⟩
  · rw [heager] at hnot
    cases hnot
  rw [hrun, if_pos heager] at h
  obtain ⟨value, hbean⟩ := Work.discard_eq_ok h
  obtain ⟨merged, hmerged, hscope⟩ := hfirst.mergedIn_of_isEager heager
  exact Chain.bean_holds member (hfirst.sought_instanceName hundefined hplain hdefined)
    ((hfirst.sources _).1 ▸ hdefined) hmerged hscope hbean

/-- **If an instance is kept of a bean that is to be made, its turn keeps no further one and calls no
constructor**, whatever comes of it. -/
theorem Chain.makeSingleton_still
    (hkept : base.isEager member.chain name = true →
      (world.state member.registry.index).singletons.contains name = true) (depth : Nat) :
    world.Still (Chain.makeSingleton depth member.registry member.ancestors name world).2 := by
  rcases makeSingleton_apply hkeeping depth with ⟨-, failure, hrun⟩ | ⟨first, hfirst, hstill, -, hrun⟩
  · rw [hrun]
    exact .refl world
  rw [hrun]
  split
  · next heager =>
    have hheld : (first.state member.registry.index).singletons.contains name = true :=
      hstill.singletons _ ▸ hkept heager
    rw [Work.discard_apply]
    exact .trans _ _ _ hstill
      (bean_still (hfirst.sought_instanceName hundefined hplain hdefined) hheld depth)
  · exact hstill

end

/-! ## All turns -/

section

variable {base world after : World} {member : family.Member} {name : String} {depth : Nat}

/-- **If all singletons are made, an instance is kept of every bean that was to be made.** -/
theorem Chain.makeSingletons_complete (hundefined : world.AliasesUndefined)
    (hplain : asksForFactory name = false)
    (hdefined : (world.state member.registry.index).definitions.contains name = true)
    (heager : world.isEager member.chain name = true)
    (h : Chain.makeSingletons depth member.registry member.ancestors world = (.ok ⟨⟩, after)) :
    (after.state member.registry.index).singletons.contains name = true := by
  rw [makeSingletons_eq, Work.state_bind_apply] at h
  have hgrows := (World.container_grows family).toMinding.makeSingleton
    ((World.container_grows family).serve_within depth).1 member.has
  have hkeeping := (World.container_keeping family world).toMinding.makeSingleton
    ((World.container_keeping family world).serve_within depth).1 member.has
  obtain ⟨before, between, ⟨-, hbefore⟩, hturn, hend, -⟩ := Work.forM_eq_ok
    (R := fun first last => first.Grows last ∧
      (World.Keeping family world first → World.Keeping family world last))
    (fun first => ⟨.refl first, id⟩) (fun _ _ _ hab hbc => ⟨hab.1.trans hbc.1, hbc.2 ∘ hab.2⟩)
    (fun name _ first => ⟨hgrows name first, hkeeping name first⟩) h
    ((Table.contains_iff_mem_keys _ _).mp hdefined)
  have hheld := makeSingleton_holds (hbefore (.refl family world)) hundefined hplain hdefined heager hturn
  obtain ⟨instance_, hkept⟩ := (Table.contains_iff_find? _ _).mp hheld
  exact Table.contains_of_find? (Table.find?_of_prefix (hend.1 _).singletons hkept)

/-- **Where an instance is kept of every bean that is to be made, making the singletons keeps no further one
and calls no constructor**, whatever comes of it. -/
theorem Chain.makeSingletons_still (hkeeping : World.Keeping family base world)
    (hundefined : base.AliasesUndefined)
    (hunmarked : ∀ name, (base.state member.registry.index).definitions.contains name = true →
      asksForFactory name = false)
    (hkept : ∀ name, (base.state member.registry.index).definitions.contains name = true →
      base.isEager member.chain name = true →
        (world.state member.registry.index).singletons.contains name = true) (depth : Nat) :
    world.Still (Chain.makeSingletons depth member.registry member.ancestors world).2 := by
  have hturns := (World.container_keeping family base).toMinding.makeSingleton
    ((World.container_keeping family base).serve_within depth).1 member.has
  rw [makeSingletons_eq, Work.state_bind_apply, (hkeeping.sources _).1]
  -- what was there before a turn is there after it
  have hrun : ((base.state member.registry.index).definitions.keys.forM
      (Chain.makeSingleton depth member.registry member.ancestors)).Keeps fun between after =>
        World.Keeping family base between ∧ world.Still between →
          World.Keeping family base after ∧ world.Still after := by
    refine (Work.compositional_preserves _).forM fun name hmem between h => ?_
    have hdefined := (Table.contains_iff_mem_keys _ _).mpr hmem
    refine ⟨hturns name between h.1, .trans _ _ _ h.2 ?_⟩
    refine makeSingleton_still h.1 hundefined (hunmarked name hdefined) hdefined (fun heager => ?_) depth
    rw [h.2.singletons]
    exact hkept name hdefined heager
  exact (hrun world ⟨hkeeping, .refl world⟩).2

end

/-! ## What a factory needs -/

/-- How far the needs of a bean were had for it, when its constructor is called or it comes to nothing: not at
all, or some of its prerequisites, or all of these and some of its inputs. -/
inductive World.NeedsHad (depth : Nat) (member : family.Member) (name : String) (world : World) :
    World → Prop
  | nothing : NeedsHad depth member name world world
  | prerequisites {merged : Definition} {first had : World} {result : Except Stop Unit}
      (hmerged : mergedDefinition member.chain name world = (.ok merged, first))
      (hrequired : realizePrerequisites (serve depth) member.registry member.ancestors name merged first =
        (result, had)) :
      NeedsHad depth member name world had
  | inputs {merged : Definition} {first second had : World} {result : Except Stop BeanInputs}
      (hmerged : mergedDefinition member.chain name world = (.ok merged, first))
      (hrequired : realizePrerequisites (serve depth) member.registry member.ancestors name merged first =
        (.ok (), second))
      (hinputs : (member.registry.resolution member.ancestors (serve depth) depth name
        (.merged member.registry.index name) merged).inputs (second.creating member.registry.index
          ((second.state member.registry.index).inCreation.insert name)) = (result, had)) :
      NeedsHad depth member name world had

section

variable (handler : Handler) (depth : Nat) (registry : Registry) (ancestors : Chain) (name : String)

/-- Creating a bean makes no product but for its inputs. -/
theorem instantiate_adds (owner : Owner) (definition : Definition) (world : World) :
    ∃ had, (had = world ∨ ∃ result,
        (registry.resolution ancestors handler depth name owner definition).inputs world = (result, had)) ∧
      Adds Event.NoProduct had.journal
        (instantiate handler depth registry ancestors name owner definition world).2.journal := by
  have hJ := journalRelation_adds Event.NoProduct
  rcases instantiate_cases handler depth registry ancestors name owner definition with
    ⟨failure, heq⟩ | ⟨className, constructor, reword, -, -, heq⟩
  · rw [heq]
    exact ⟨world, .inl rfl, hJ.refl _⟩
  · rw [heq]
    rcases hinputs : (registry.resolution ancestors handler depth name owner definition).inputs world with
      ⟨stop | inputs, had⟩
    · rw [Work.bind_apply_error hinputs]
      exact ⟨had, .inr ⟨_, rfl⟩, hJ.refl _⟩
    · rw [Work.bind_apply_ok hinputs, Work.explain_apply_snd]
      obtain ⟨result, made, construction, hrun, -, -⟩ :=
        construct_cases registry owner className constructor inputs had
      rw [hrun]
      exact ⟨had, .inr ⟨_, rfl⟩, hJ.cons _ _ nofun⟩

/-- Having the instance of a bean makes no product but for its inputs, which are had while the bean counts as
being created. -/
theorem instanceOf_adds (merged : Definition) (world : World) :
    let start := world.creating registry.index ((world.state registry.index).inCreation.insert name)
    ∃ had, (had = start ∨ ∃ result, (registry.resolution ancestors handler depth name
        (.merged registry.index name) merged).inputs start = (result, had)) ∧
      Adds Event.NoProduct had.journal
        (instanceOf handler depth registry ancestors name merged world).2.journal := by
  intro start
  have hJ := journalRelation_adds Event.NoProduct
  have hcreate : ∃ had, (had = start ∨ ∃ result, (registry.resolution ancestors handler depth name
        (.merged registry.index name) merged).inputs start = (result, had)) ∧
      Adds Event.NoProduct had.journal (guarded registry name (instantiate handler depth registry ancestors
        name (.merged registry.index name) merged) world).2.journal := by
    cases hidle : (world.state registry.index).inCreation.contains name with
    | true =>
      rw [guarded_of_creating _ hidle]
      exact ⟨start, .inl rfl, hJ.refl _⟩
    | false =>
      have hadds := instantiate_adds handler depth registry ancestors name (.merged registry.index name)
        merged start
      rcases hrun : instantiate handler depth registry ancestors name (.merged registry.index name) merged
        start with ⟨result, after⟩
      rw [hrun] at hadds
      rw [guarded_of_idle hidle hrun]
      exact hadds
  unfold instanceOf
  split
  · unfold singletonOr
    rw [Work.state_bind_apply]
    cases (world.state registry.index).singletons.find? name with
    | some shared => exact ⟨start, .inl rfl, hJ.refl _⟩
    | none =>
      obtain ⟨had, hhad, hadds⟩ := hcreate
      -- keeping what was made is not noted
      exact ⟨had, hhad, Work.bind_preserves (P := fun after => Adds _ had.journal after.journal) hadds
        fun _ _ _ hafter => hafter⟩
  · exact hcreate

end

/-- **Having the instance of a bean makes no product but for what the bean needs**, and nothing is needed if
one is kept. -/
theorem holdInstance_adds (depth : Nat) (member : family.Member) (name : String) (world : World) :
    ∃ had, world.NeedsHad depth member name had ∧
      Adds Event.NoProduct had.journal
        (holdInstance (serve depth) depth member.registry member.ancestors name world).2.journal ∧
      ((world.state member.registry.index).singletons.contains name = true → had = world) := by
  have hJ := journalRelation_adds Event.NoProduct
  unfold holdInstance
  rw [Work.state_bind_apply, Table.contains]
  cases (world.state member.registry.index).singletons.find? name with
  | some shared => exact ⟨world, .nothing, hJ.refl _, fun _ => rfl⟩
  | none =>
    suffices hhad : ∃ had, world.NeedsHad depth member name had ∧ Adds Event.NoProduct had.journal _ by
      obtain ⟨had, hneeds, hadds⟩ := hhad
      exact ⟨had, hneeds, hadds, fun hkept => absurd hkept Bool.false_ne_true⟩
    dsimp only
    rcases hmerged : mergedDefinition (member.registry :: member.ancestors) name world with
      ⟨stop | merged, first⟩
    · obtain rfl : first = world := Work.takeMerged_eq_error hmerged
      rw [Work.bind_apply_error hmerged]
      exact ⟨first, .nothing, hJ.refl _⟩
    rw [Work.bind_apply_ok hmerged]
    rcases hrequired : realizePrerequisites (serve depth) member.registry member.ancestors name merged first
      with ⟨stop | _, second⟩
    · rw [Work.bind_apply_error hrequired]
      exact ⟨second, .prerequisites hmerged hrequired, hJ.refl _⟩
    rw [Work.bind_apply_ok hrequired]
    obtain ⟨had, rfl | ⟨result, hinputs⟩, hadds⟩ :=
      instanceOf_adds (serve depth) depth member.registry member.ancestors name merged second
    · exact ⟨second, .prerequisites hmerged hrequired, hadds⟩
    · exact ⟨had, .inputs hmerged hrequired hinputs, hadds⟩

/-- A name with the mark asks for the factory. -/
theorem asksForFactory_factoryMark (name : String) : asksForFactory (factoryMark ++ name) = true := by
  unfold asksForFactory factoryMark
  rw [String.toList_append]
  rfl

/-- To expose a factory itself makes nothing. -/
theorem exposed_of_mark {registry : Registry} {instance_ : Value} {written name : String} {processed : Bool}
    (h : asksForFactory written = true) (world : World) :
    (exposed registry instance_ written name processed world).2 = world := by
  unfold exposed
  rw [if_pos h]
  split <;> rfl

section

variable {base world : World} {member : family.Member} {name : String}

/-- **Asking for a factory itself makes no product but for what the factory needs**, and nothing is needed if
an instance of it is kept. -/
theorem Chain.bean_needs (hflags : world.FlagsOwn family) (hundefined : world.AliasesUndefined)
    (hplain : asksForFactory name = false)
    (hdefined : (world.state member.registry.index).definitions.contains name = true) (depth : Nat) :
    ∃ had, world.NeedsHad depth member name had ∧
      Adds Event.NoProduct had.journal
        (Chain.bean (depth + 1) member.chain (factoryMark ++ name) world).2.journal ∧
      ((world.state member.registry.index).singletons.contains name = true → had = world) := by
  have hsought : world.sought member.registry (factoryMark ++ name) = name := by
    unfold World.sought
    rw [plainName_factoryMark, plainName_of_plain hplain, hundefined.canonicalName hdefined]
  obtain ⟨own, hown⟩ := (Table.contains_iff_find? _ _).mp hdefined
  obtain ⟨had, hneeds, hheld, hkept⟩ := holdInstance_adds depth member name world
  refine ⟨had, hneeds, ?_, hkept⟩
  rw [bean_eq_hold hflags hundefined hsought hown]
  have hJ := journalRelation_adds Event.NoProduct
  refine Work.bind_preserves (P := fun after => Adds _ had.journal after.journal) hheld
    fun instance_ between _ hbetween => ?_
  refine Work.bind_preserves (P := fun after => Adds _ had.journal after.journal) ?_
    fun value after _ hafter => ?_
  · rw [exposed_of_mark (asksForFactory_factoryMark name)]
    exact hbetween
  · exact hJ.trans _ _ _ hafter (hJ.cons _ _ nofun)

/-- **When the turn of a bean of a class of factories comes, it is asked for as a factory**, so that no product
is made but for what it needs. -/
theorem Chain.makeSingleton_needs (hkeeping : World.Keeping family base world)
    (hflags : base.FlagsOwn family) (hundefined : base.AliasesUndefined)
    (hplain : asksForFactory name = false)
    (hdefined : (base.state member.registry.index).definitions.contains name = true)
    (heager : base.isEager member.chain name = true)
    (hfactories : base.isOfFactories member.registry member.ancestors name = true) (depth : Nat) :
    ∃ first had, first.journal = world.journal ∧
      Chain.makeSingleton (depth + 1) member.registry member.ancestors name world =
        discard (Chain.bean (depth + 1) member.chain (factoryMark ++ name)) first ∧
      first.NeedsHad depth member name had ∧
      Adds Event.NoProduct had.journal
        (Chain.makeSingleton (depth + 1) member.registry member.ancestors name world).2.journal ∧
      ((world.state member.registry.index).singletons.contains name = true → had = first) := by
  rcases makeSingleton_apply hkeeping (depth + 1) with ⟨hnot, -⟩ | ⟨first, hfirst, hstill, hjournal, hrun⟩
  · rw [heager] at hnot
    cases hnot
  unfold World.instanceName at hrun
  rw [if_pos heager, if_pos hfactories] at hrun
  obtain ⟨had, hneeds, hadds, hkept⟩ := bean_needs (hflags.keeping hfirst)
    (hundefined.of_sameSources hfirst.sources) hplain ((hfirst.sources _).1 ▸ hdefined) depth
  refine ⟨first, had, hjournal, hrun, hneeds, ?_, fun hworld => hkept ?_⟩
  · rw [hrun, Work.discard_apply]
    exact hadds
  · rw [hstill.singletons]
    exact hworld

end

/-! ## The whole -/

/-- The operation registers nothing. -/
def Operation.IsInquiry : Operation family → Prop
  | .register _ _ => False
  | .inquire _ _ _ => True

/-- Whatever is asked, work keeps to what a base says. -/
theorem World.Keeping.followed {base world : World} (h : World.Keeping family base world)
    {inquiries : List (Operation family)} (hinquiries : ∀ operation ∈ inquiries, operation.IsInquiry) :
    World.Keeping family base (world.followed inquiries) := by
  refine World.followed_keeps (R := fun world after =>
      World.Keeping family base world → World.Keeping family base after) (fun _ => id)
    (fun _ _ _ hab hbc => hbc ∘ hab) (fun operation hmem => ?_) world h
  cases operation with
  | register member registration => exact (hinquiries _ hmem).elim
  | inquire member depth inquiry => exact inquiry.keeping base member depth

/-- Whatever is asked, no bean is redefined. -/
theorem World.leftAlone_of_inquiries {world : World} {index : Nat} {name : String}
    {inquiries : List (Operation family)} (hinquiries : ∀ operation ∈ inquiries, operation.IsInquiry) :
    world.LeftAlone index name inquiries := by
  refine World.leftAlone_of_forall fun operation hmem other hredefines => ?_
  cases operation with
  | register member registration => exact hinquiries _ hmem
  | inquire member depth inquiry => exact hredefines

/-- **The singletons are made once and for all.** In a world in which no definition of a container has a name
with a mark: if its singletons are made without a failure, an instance is kept of every bean that was to be
made, and whatever is asked afterwards, to make them once more keeps no further instance and calls no
constructor, whatever comes of it. And whenever the turn of a bean of a class of factories comes, the factory
itself is asked for, and no product is made but for what the factory needs, which is nothing if it is kept. -/
theorem Chain.singletons_made {start : World} (h : Reachable family start) (member : family.Member)
    (hunmarked : ∀ name, (start.state member.registry.index).definitions.contains name = true →
      asksForFactory name = false) :
    (∀ depth after,
      Chain.makeSingletons depth member.registry member.ancestors start = (.ok ⟨⟩, after) →
      (∀ name, (start.state member.registry.index).definitions.contains name = true →
        start.isEager member.chain name = true →
        (after.state member.registry.index).singletons.contains name = true) ∧
      ∀ inquiries : List (Operation family), (∀ operation ∈ inquiries, operation.IsInquiry) →
        ∀ later, (after.followed inquiries).Still
          (Chain.makeSingletons later member.registry member.ancestors (after.followed inquiries)).2) ∧
    ∀ depth done name rest world,
      (start.state member.registry.index).definitions.keys = done ++ name :: rest →
      done.forM (Chain.makeSingleton (depth + 1) member.registry member.ancestors) start =
        (.ok ⟨⟩, world) →
      start.isEager member.chain name = true →
      start.isOfFactories member.registry member.ancestors name = true →
      ∃ first had, first.journal = world.journal ∧
        Chain.makeSingleton (depth + 1) member.registry member.ancestors name world =
          discard (Chain.bean (depth + 1) member.chain (factoryMark ++ name)) first ∧
        first.NeedsHad depth member name had ∧
        Adds Event.NoProduct had.journal
          (Chain.makeSingleton (depth + 1) member.registry member.ancestors name world).2.journal ∧
        ((world.state member.registry.index).singletons.contains name = true → had = first) := by
  have hundefined := h.aliasesUndefined
  have hkeeping := World.container_keeping family start
  refine ⟨fun depth after hok => ?_, fun depth done name rest world hkeys hdone heager hfactories => ?_⟩
  · have hcomplete : ∀ name, (start.state member.registry.index).definitions.contains name = true →
        start.isEager member.chain name = true →
          (after.state member.registry.index).singletons.contains name = true :=
      fun name hdefined heager =>
        makeSingletons_complete hundefined (hunmarked name hdefined) hdefined heager hok
    refine ⟨hcomplete, fun inquiries hinquiries later => ?_⟩
    have hafter : (Operation.inquire member depth .singletons).next start = after :=
      congrArg Prod.snd hok
    have hreachable : Reachable family after := hafter ▸ h.next _
    have hkept : World.Keeping family start after :=
      (Inquiry.keeping start member depth .singletons).run hok (.refl family start)
    refine makeSingletons_still (hkept.followed hinquiries) hundefined hunmarked
      (fun name hdefined heager => ?_) later
    -- asking redefines no bean, so the instance is kept all along
    obtain ⟨instance_, hinstance⟩ := (Table.contains_iff_find? _ _).mp (hcomplete name hdefined heager)
    obtain ⟨hlater, -⟩ := hreachable.followed_keepsBean hinstance (World.leftAlone_of_inquiries hinquiries)
    exact Table.contains_of_find? (hlater.instance_ _ hinstance)
  · have hdefined : (start.state member.registry.index).definitions.contains name = true := by
      refine (Table.contains_iff_mem_keys _ _).mpr ?_
      rw [hkeys]
      exact List.mem_append_right _ List.mem_cons_self
    -- the turns before it keep to what the start says of every name
    have hworld : World.Keeping family start world :=
      ((Work.compositional_preserves _).forM fun name _ =>
        hkeeping.toMinding.makeSingleton (hkeeping.serve_within (depth + 1)).1 member.has name).run hdone
          (.refl family start)
    exact makeSingleton_needs hworld h.flagsOwn hundefined (hunmarked name hdefined) hdefined heager
      hfactories depth

/-! ### A bean that needs a product -/

/-- A class of plain beans, and one of factories that make a text. -/
def workshopRegistry : Registry where
  index := 0
  classes := ClassTable.register (ClassTable.register {} "P" { construct := Plan.constructor (.plain "P") [] })
    "F"
    { construct := Plan.constructor (.factory "F" (.production (.always (.text "made"))) none true) []
      productType := some .text }

/-- The bean `p` cannot be had before the product of the factory `f`, and `l` is lazy. -/
def workshopOperations : List (Operation (Family.lone workshopRegistry)) :=
  let member := Registry.lone workshopRegistry
  [.register member (.definition "p" { className := some "P", dependsOn := ["f"] }),
    .register member (.definition "f" { className := some "F" }),
    .register member (.definition "l" { className := some "P", lazy := true })]

/-- All singletons but the lazy one are made at once. When the turn of `f` comes, it was had for `p` already,
and nothing is made. -/
theorem singletons_made_workshop :
    let member := Registry.lone workshopRegistry
    let start := World.after workshopOperations
    (∃ after, Chain.makeSingletons 2 member.registry member.ancestors start = (.ok ⟨⟩, after) ∧
      (after.state 0).singletons.contains "p" = true ∧ (after.state 0).singletons.contains "f" = true ∧
      (after.followed [.inquire member 1 (.bean "l")]).Still
        (Chain.makeSingletons 2 member.registry member.ancestors
          (after.followed [.inquire member 1 (.bean "l")])).2) ∧
    ∃ world, ["p"].forM (Chain.makeSingleton 2 member.registry member.ancestors) start = (.ok ⟨⟩, world) ∧
      Adds Event.NoProduct world.journal
        (Chain.makeSingleton 2 member.registry member.ancestors "f" world).2.journal := by
  intro member start
  have hunmarked : ∀ name, (start.state 0).definitions.contains name = true →
      asksForFactory name = false := by
    have hkeys : ∀ name ∈ (start.state 0).definitions.keys, asksForFactory name = false := by decide +kernel
    exact fun name hdefined => hkeys name ((Table.contains_iff_mem_keys _ _).mp hdefined)
  obtain ⟨hrun, hturn⟩ := Chain.singletons_made ⟨workshopOperations, rfl⟩ member hunmarked
  constructor
  · have hok : (Chain.makeSingletons 2 member.registry member.ancestors start).1.isOk = true := by
      decide +kernel
    rcases hafter : Chain.makeSingletons 2 member.registry member.ancestors start with ⟨stop | _, after⟩ <;>
      rw [hafter] at hok
    · cases hok
    obtain ⟨hcomplete, hstill⟩ := hrun 2 after hafter
    refine ⟨after, rfl, hcomplete "p" (by decide +kernel) (by decide +kernel),
      hcomplete "f" (by decide +kernel) (by decide +kernel), hstill _ (fun operation hmem => ?_) 2⟩
    rw [List.mem_singleton.mp hmem]
    exact trivial
  · have hok : (["p"].forM (Chain.makeSingleton 2 member.registry member.ancestors) start).1.isOk = true := by
      decide +kernel
    have hkept : ((["p"].forM (Chain.makeSingleton 2 member.registry member.ancestors) start).2.state
        0).singletons.contains "f" = true := by decide +kernel
    rcases hdone : ["p"].forM (Chain.makeSingleton 2 member.registry member.ancestors) start with
      ⟨stop | _, world⟩ <;> rw [hdone] at hok hkept
    · cases hok
    obtain ⟨first, had, hjournal, -, -, hadds, hnothing⟩ := hturn 1 ["p"] "f" ["l"] world
      (by decide +kernel) hdone (by decide +kernel) (by decide +kernel)
    rw [hnothing hkept, hjournal] at hadds
    exact ⟨world, rfl, hadds⟩

end Injector
