import Injector.Proofs.Autowiring.ByType
import Injector.Proofs.Creation.Renewal

/-!
# The one bean of a type

Which bean of a type a chain of containers means is settled before any bean is had
(`World.selection`): the nearest container that has beans of the type means its only one, or its only
primary one. So there are two ways in which it may fail, and it is told by the beans that are listed which
of them it is (`World.selection_noSuchBean_iff`, `World.selection_noUniqueBean_iff`).

The bean that is meant is then had by its name, as any other. If classes and factories make what they say
(`World.Honest`), what is had is of the type, whether the bean was listed for an instance that was kept or
for the class by which one was then made. There is one exception: a product that is kept under the name of
a factory which does not yield it (`Chain.namedBean_typed`).
-/

namespace Injector

variable {family : Family}

/-! ## Which bean is meant -/

namespace World

variable (world : World) (type : ValueType)

/-- Which of several beans a container means, if they are not for a place with a name. -/
def chosen (registry : Registry) : List String → Option String
  | [only] => some only
  | names => (world.state registry.index).chooseCandidate names none

/-- The bean of a type that a chain of containers means, with the part of the chain that has it. -/
def selection : Chain → Except Failure (Chain × String)
  | [] => .error (.noSuchBeanOfType type.name)
  | registry :: ancestors =>
    let names := world.namesOfType registry ancestors type
    if names.isEmpty then selection ancestors
    else
      match world.chosen registry names with
      | some name => .ok (registry :: ancestors, name)
      | none => .error (.noUniqueBean type.name names)

/-- The nearest container of a chain that has beans of a type. -/
inductive Nearest : Chain → Registry → Chain → Prop
  | here {registry : Registry} {ancestors : Chain}
      (h : world.namesOfType registry ancestors type ≠ []) :
      Nearest (registry :: ancestors) registry ancestors
  | above {first registry : Registry} {rest ancestors : Chain}
      (hnone : world.namesOfType first rest type = []) (h : Nearest rest registry ancestors) :
      Nearest (first :: rest) registry ancestors

variable {world type} {chain : Chain}

theorem Nearest.suffix {registry : Registry} {ancestors : Chain}
    (h : world.Nearest type chain registry ancestors) : registry :: ancestors <:+ chain := by
  induction h with
  | here => exact List.suffix_refl _
  | above _ _ ih => exact ih.trans (List.suffix_cons _ _)

/-- What is chosen is what is meant for no place in particular. -/
theorem chosen_eq_meant (registry : Registry) (names : List String) :
    world.chosen registry names = (world.state registry.index).meant names none :=
  rfl

/-- A bean that is chosen is one of those given. -/
theorem mem_of_chosen {registry : Registry} {names : List String} {name : String}
    (h : world.chosen registry names = some name) : name ∈ names :=
  (State.meant_eq_some_iff.mp h).mem

/-- None is chosen unless there is only one or one alone is primary. -/
theorem chosen_eq_none_iff {registry : Registry} {names : List String} :
    world.chosen registry names = none ↔ names.length ≠ 1 ∧
      ((world.state registry.index).primaries names).length ≠ 1 := by
  rw [chosen_eq_meant, State.meant_eq_none_iff]
  exact and_congr_right fun _ => and_iff_left fun _ hplace => nomatch hplace

/-- Which bean is meant is told by the nearest container that has any, if there is one. -/
theorem selection_cases (world : World) (type : ValueType) (chain : Chain) :
    ((∀ registry ancestors, registry :: ancestors <:+ chain →
        world.namesOfType registry ancestors type = []) ∧
      world.selection type chain = .error (.noSuchBeanOfType type.name)) ∨
    ∃ registry ancestors, world.Nearest type chain registry ancestors ∧
      world.selection type chain =
        match world.chosen registry (world.namesOfType registry ancestors type) with
        | some name => .ok (registry :: ancestors, name)
        | none => .error (.noUniqueBean type.name (world.namesOfType registry ancestors type)) := by
  induction chain with
  | nil => exact .inl ⟨fun _ _ h => (List.cons_ne_nil _ _ (List.suffix_nil.mp h)).elim, rfl⟩
  | cons first rest ih =>
    unfold selection
    by_cases hnone : world.namesOfType first rest type = []
    · rw [hnone]
      rcases ih with ⟨hnothing, hselection⟩ | ⟨registry, ancestors, hnearest, hselection⟩
      · refine .inl ⟨fun registry ancestors h => ?_, hselection⟩
        rcases List.suffix_cons_iff.mp h with heq | hrest
        · cases heq
          exact hnone
        · exact hnothing registry ancestors hrest
      · exact .inr ⟨registry, ancestors, .above hnone hnearest, hselection⟩
    · refine .inr ⟨first, rest, .here hnone, ?_⟩
      rw [if_neg (by simpa using hnone)]

theorem Nearest.nonempty {registry : Registry} {ancestors : Chain}
    (h : world.Nearest type chain registry ancestors) :
    world.namesOfType registry ancestors type ≠ [] := by
  induction h with
  | here hsome => exact hsome
  | above _ _ ih => exact ih

/-- There is only one nearest container. -/
theorem Nearest.unique {registry other : Registry} {ancestors others : Chain}
    (h : world.Nearest type chain registry ancestors) (h' : world.Nearest type chain other others) :
    registry = other ∧ ancestors = others := by
  induction h with
  | here hsome =>
    cases h' with
    | here => exact ⟨rfl, rfl⟩
    | above hnone => exact absurd hnone hsome
  | above hnone _ ih =>
    cases h' with
    | here hsome => exact absurd hnone hsome
    | above _ hrest => exact ih hrest

/-- **No bean is found exactly if no container of the chain has any.** -/
theorem selection_noSuchBean_iff :
    world.selection type chain = .error (.noSuchBeanOfType type.name) ↔
      ∀ registry ancestors, registry :: ancestors <:+ chain →
        world.namesOfType registry ancestors type = [] := by
  rcases world.selection_cases type chain with
    ⟨hnothing, hselection⟩ | ⟨registry, ancestors, hnearest, hselection⟩
  · exact iff_of_true hselection hnothing
  · refine iff_of_false (fun h => ?_) fun h => hnearest.nonempty (h _ _ hnearest.suffix)
    rw [hselection] at h
    split at h <;> cases h

/-- **It is undecided which bean is meant exactly if the nearest container that has any has several, of
which not one alone is primary.** The failure tells all of them. -/
theorem selection_noUniqueBean_iff {typeName : String} {names : List String} :
    world.selection type chain = .error (.noUniqueBean typeName names) ↔
      typeName = type.name ∧ ∃ registry ancestors, world.Nearest type chain registry ancestors ∧
        names = world.namesOfType registry ancestors type ∧ 1 < names.length ∧
        (names.filter fun name =>
          ((world.state registry.index).definition? name).any (·.primary)).length ≠ 1 := by
  rcases world.selection_cases type chain with
    ⟨hnothing, hselection⟩ | ⟨registry, ancestors, hnearest, hselection⟩
  · refine iff_of_false (fun h => ?_) fun ⟨_, _, _, hnearest, _⟩ =>
      hnearest.nonempty (hnothing _ _ hnearest.suffix)
    rw [hselection] at h
    cases h
  · rw [hselection]
    constructor
    · intro h
      split at h
      · cases h
      · next hnone =>
        cases h
        obtain ⟨hone, hprimary⟩ := chosen_eq_none_iff.mp hnone
        have hsome := List.length_pos_iff.mpr hnearest.nonempty
        exact ⟨rfl, registry, ancestors, hnearest, rfl, by omega, hprimary⟩
    · rintro ⟨rfl, other, others, hother, rfl, hseveral, hprimary⟩
      obtain ⟨rfl, rfl⟩ := hnearest.unique hother
      rw [chosen_eq_none_iff.mpr ⟨hseveral.ne', hprimary⟩]

/-- **The bean that is meant is one that the nearest container has.** -/
theorem selection_eq_ok {part : Chain} {name : String}
    (h : world.selection type chain = .ok (part, name)) :
    ∃ registry ancestors, part = registry :: ancestors ∧ world.Nearest type chain registry ancestors ∧
      name ∈ world.namesOfType registry ancestors type := by
  rcases world.selection_cases type chain with
    ⟨-, hselection⟩ | ⟨registry, ancestors, hnearest, hselection⟩
  · rw [hselection] at h
    cases h
  · rw [hselection] at h
    split at h
    · next hchosen =>
      cases h
      exact ⟨registry, ancestors, rfl, hnearest, mem_of_chosen hchosen⟩
    · cases h

end World

/-- Choosing is done as the base says. -/
theorem chooseOne_eq {base world : World} (h : base.Unmoved family world) (registry : Registry)
    (type : ValueType) (names : List String) :
    chooseOne registry type names none world =
      match base.chosen registry names with
      | some name => (.ok name, world)
      | none => (.error (.failure (.noUniqueBean type.name names)), world) := by
  rw [chooseOne_apply, State.meant_congr (h.sources registry.index)]
  rfl

/-- **What is had of a type is the bean that is meant, had by its name.** A request that fails because it
is undecided which is meant, or for want of any, has not asked for one. -/
theorem fetchNamed_eq (fetch : Fetch) (type : ValueType) {base : World} :
    ∀ {chain : Chain} {world : World}, family.Has chain → base.Unmoved family world →
      ∃ between, base.Unmoved family between ∧ fetchNamed fetch chain type world =
        match base.selection type chain with
        | .error failure => (.error (.failure failure), between)
        | .ok (part, name) => (fetch part name >>= fun value => pure (name, value)) between
  | [], world, _, h => ⟨world, h, rfl⟩
  | registry :: ancestors, world, hf, h => by
    obtain ⟨listed, hnames, hlisted⟩ := namesForType_eq hf h type
    unfold fetchNamed World.selection
    rw [Work.bind_apply_ok hnames]
    dsimp only
    split
    · exact fetchNamed_eq fetch type (family.ancestors_has hf) hlisted
    · refine ⟨listed, hlisted, ?_⟩
      rw [Work.bind_apply, chooseOne_eq hlisted]
      cases base.chosen registry (base.namesOfType registry ancestors type) <;> rfl

/-! ## What a factory yields -/

/-- What a factory may yield when it is asked. -/
def Factory.Yields (maker : Factory Value) (product : Value) : Prop :=
  match maker.production with
  | .always settled => product = settled
  | .fresh className => ∃ label, product = .bean (.plain className label)
  | .failing _ => False
  | .counting => ∃ count, product = .int count
  | .answering answer => ∃ count, answer count = .ok product

/-- The products of a factory are of the type that it tells and of the type that its class is registered
for. -/
def ClassTable.Fulfils (classes : ClassTable) (typeName : String) (maker : Factory Value) : Prop :=
  ∀ product, maker.Yields product →
    ∀ type, maker.objectType = some type ∨ classes.productType? typeName = some type →
      type.accepts product = true

/-- A product is kept under the name of a factory that does not yield it. -/
def State.Misplaces (state : State) (name : String) (product : Value) : Prop :=
  state.products.find? name = some product ∧
    ∃ label maker, (state.singletons.find? name).bind Value.factory? = some (label, maker) ∧
      ¬ maker.Yields product

section

variable {registry : Registry} {label : BeanLabel} {maker : Factory Value} {name : String}
  {processed : Bool} {product : Value} {world after : World}

theorem World.askFactory_yields (h : (world.askFactory label maker).1 = .ok product) :
    maker.Yields product := by
  unfold World.askFactory at h
  unfold Factory.Yields
  cases hproduction : maker.production with
  | always settled =>
    rw [hproduction] at h
    cases h
    rfl
  | fresh className =>
    rw [hproduction] at h
    cases h
    exact ⟨_, rfl⟩
  | failing cause =>
    rw [hproduction] at h
    cases h
  | counting =>
    rw [hproduction] at h
    cases h
    exact ⟨_, rfl⟩
  | answering answer =>
    rw [hproduction] at h
    exact ⟨_, h⟩

theorem newProduct_yields (h : newProduct label maker world = (.ok product, after)) :
    maker.Yields product := by
  unfold newProduct at h
  rw [Work.get_bind_apply] at h
  rcases hrun : world.askFactory label maker with ⟨failure | made, between⟩ <;>
    rw [hrun] at h <;> cases h
  exact World.askFactory_yields (congrArg Prod.fst hrun)

/-- Without a post-processor, a new product is what the factory yields. -/
theorem freshProduct_yields (hplain : registry.postProcessor = none)
    (h : freshProduct registry label maker name processed world = (.ok product, after)) :
    maker.Yields product := by
  obtain ⟨made, between, hmade, h⟩ := Work.bind_eq_ok h
  have hyields := newProduct_yields (Work.explain_eq_ok hmade)
  split at h
  · have hprocess := Work.explain_eq_ok h
    unfold postProcess at hprocess
    rw [hplain] at hprocess
    cases hprocess
    exact hyields
  · cases h
    exact hyields

/-- The product that is given is what the factory yields, or one that had been kept under the name of an
instance. -/
theorem productOf_yields (hplain : registry.postProcessor = none)
    (h : productOf registry label maker name processed world = (.ok product, after)) :
    maker.Yields product ∨ after.states = world.states ∧
      (world.state registry.index).products.find? name = some product ∧
      ∃ holder, (world.state registry.index).singletons.find? name = some holder := by
  rcases productOf_eq_ok_cases h with hkept | ⟨made, hfresh, -⟩
  · exact .inr hkept
  · exact .inl (freshProduct_yields hplain hfresh)

end

/-! ## What an instance stands for -/

/-- What those are given who ask for the instance is of the type: the instance itself, or whatever it
yields if it is a factory. -/
def Value.StandsFor (instance_ : Value) (type : ValueType) : Prop :=
  match instance_.factory? with
  | none => type.accepts instance_ = true
  | some (_, maker) => ∀ product, maker.Yields product → type.accepts product = true

/-- An instance that is judged to be of a type stands for it. -/
theorem ClassTable.standsFor_of_serves {classes : ClassTable} {type : ValueType} {instance_ : Value}
    (hfulfils : ∀ typeName label maker, instance_ = .bean (.factory typeName label maker) →
      classes.Fulfils typeName maker)
    (h : classes.serves type instance_ = true) : instance_.StandsFor type := by
  cases instance_ with
  | bean bean =>
    cases bean with
    | null => cases h
    | plain typeName label => exact h
    | factory typeName label maker =>
      have htype : maker.objectType.or (classes.productType? typeName) = some type := beq_iff_eq.mp h
      refine fun product hyields => hfulfils typeName label maker rfl product hyields type ?_
      exact (Option.or_eq_some_iff.mp htype).imp_right And.right
  | _ => exact h

/-- An instance that its class makes stands for the types of which the class makes beans. -/
theorem ClassTable.Eponymous.standsFor_of_makes {classes : ClassTable} (h : classes.Eponymous)
    {className : String} {constructor : Constructor} {inputs : BeanInputs} {blueprint : Blueprint}
    (hfulfils : ∀ maker, blueprint = .factory className maker → classes.Fulfils className maker)
    (hclass : classes.constructor? className = some constructor)
    (hmade : constructor inputs = .ok blueprint) {type : ValueType}
    (htype : classes.makes type className = true) (world : World) :
    (world.makeBean blueprint).1.StandsFor type := by
  unfold ClassTable.makes at htype
  cases hproduct : classes.productType? className with
  | none =>
    rw [hproduct] at htype
    obtain rfl := beq_iff_eq.mp htype
    rcases h.plain className constructor inputs blueprint hclass hproduct hmade with rfl | rfl
    · exact rfl
    · exact beq_self_eq_true className
  | some product =>
    rw [hproduct] at htype
    obtain rfl := beq_iff_eq.mp htype
    obtain ⟨maker, rfl⟩ := h.factory className constructor product inputs blueprint hclass hproduct hmade
    exact fun made hyields => hfulfils maker rfl made hyields product (.inr hproduct)

/-- **What is exposed of an instance is of a type for which the instance stands**, unless a product is
misplaced. -/
theorem exposed_typed {registry : Registry} {instance_ value : Value} {written name : String}
    {processed : Bool} {type : ValueType} {world after : World}
    (hplain : registry.postProcessor = none) (hunmarked : asksForFactory written = false)
    (hstands : instance_.StandsFor type)
    (hkept : ∀ kept, (world.state registry.index).singletons.find? name = some kept → kept = instance_)
    (h : exposed registry instance_ written name processed world = (.ok value, after)) :
    type.accepts value = true ∨ (after.state registry.index).Misplaces name value := by
  unfold exposed at h
  rw [hunmarked, if_neg Bool.false_ne_true] at h
  unfold Value.StandsFor at hstands
  cases hfactory : instance_.factory? with
  | none =>
    rw [hfactory] at h hstands
    cases h
    exact .inl hstands
  | some factory =>
    obtain ⟨label, maker⟩ := factory
    rw [hfactory] at h hstands
    by_cases hyields : maker.Yields value
    · exact .inl (hstands value hyields)
    · obtain ⟨hstates, hproduct, holder, hholder⟩ := (productOf_yields hplain h).resolve_left hyields
      refine .inr ⟨?_, label, maker, ?_, hyields⟩ <;> unfold World.state <;> rw [hstates]
      · exact hproduct
      · rw [← hkept holder hholder] at hfactory
        exact Option.bind_eq_some_iff.mpr ⟨holder, hholder, hfactory⟩

/-! ## Beans that are of the type they are listed for -/

/-- The classes of a container make beans of their own, whose products are of the types that are told of
them, and so are those of the factories that it keeps. Nothing comes between a bean and those who ask for
it: no post-processor, no alias in the place of an instance, and no mark before a name. -/
structure World.Honest (world : World) (registry : Registry) : Prop where
  eponymous : registry.classes.Eponymous
  constructed : ∀ className constructor inputs maker,
    registry.classes.constructor? className = some constructor →
      constructor inputs = .ok (.factory className maker) → registry.classes.Fulfils className maker
  kept : ∀ name typeName label maker,
    (world.state registry.index).singletons.find? name = some (.bean (.factory typeName label maker)) →
      registry.classes.Fulfils typeName maker
  unprocessed : registry.postProcessor = none
  unaliased : ∀ name, (world.state registry.index).singletons.contains name = true →
    (world.state registry.index).aliases.find? name = none
  unmarked : ∀ name ∈ world.ownNames registry, asksForFactory name = false

section

variable {base world after : World} {name : String} {value : Value} {depth : Nat} {type : ValueType}

theorem World.Unmoved.ownNames_eq (h : base.Unmoved family world) (registry : Registry) :
    world.ownNames registry = base.ownNames registry := by
  unfold World.ownNames
  dsimp only
  rw [h.singletons, (h.sources _).1]

theorem World.Unmoved.honest (h : base.Unmoved family world) {registry : Registry}
    (hhonest : base.Honest registry) : world.Honest registry where
  eponymous := hhonest.eponymous
  constructed := hhonest.constructed
  kept := by
    rw [h.singletons]
    exact hhonest.kept
  unprocessed := hhonest.unprocessed
  unaliased := by
    rw [h.singletons, (h.sources _).2]
    exact hhonest.unaliased
  unmarked := by
    rw [h.ownNames_eq]
    exact hhonest.unmarked

/-- The same beans are of a type in a world that keeps to another. -/
theorem World.Unmoved.namesOfType_eq (h : base.Unmoved family world) (member : family.Member) :
    world.namesOfType member.registry member.ancestors type =
      base.namesOfType member.registry member.ancestors type := by
  unfold World.namesOfType
  rw [h.ownNames_eq]
  refine List.filter_congr fun name _ => ?_
  unfold World.isOfType World.classOf
  rw [h.singletons, h.toRestsOn.bareOf_mergedIn member.has]

/-- One of a container's own names stands for itself. -/
theorem World.Honest.sought (hundefined : world.AliasesUndefined) {registry : Registry}
    (hhonest : world.Honest registry) (hname : name ∈ world.ownNames registry) :
    world.sought registry name = name := by
  unfold World.sought
  rw [plainName_of_plain (hhonest.unmarked name hname)]
  rcases List.mem_append.mp hname with hdefined | hkept
  · exact hundefined.canonicalName ((Table.contains_iff_mem_keys _ _).mpr hdefined)
  · have hsingleton := (Table.contains_iff_mem_keys _ _).mpr (List.mem_filter.mp hkept).1
    exact State.canonicalName_of_end (hhonest.unaliased name hsingleton)

/-- The instance that was made for the bean of a name stands for the types of which the class of the bean
makes beans. -/
theorem World.Honest.standsFor_of_initialized {member : family.Member}
    (hhonest : world.Honest member.registry) {creation : Creation family} (hplanned : creation.Planned world)
    (howner : creation.owner = .merged member.registry.index name) {construction : Construction}
    {earlier : List Event} (hinitialized : creation.Initialized world after construction earlier)
    {instance_ : Value} (hmade : construction.made = some instance_) {className : String}
    (hclass : world.classOf member.chain name = some className)
    (hmakes : member.registry.classes.makes type className = true) : instance_.StandsFor type := by
  obtain ⟨maker, constructor, blueprint, before, hmaker, hconstructor, hblueprint, hvalue⟩ :=
    hinitialized.succeeded (hmade ▸ rfl)
  rw [hmade] at hvalue
  obtain rfl := Option.some.inj hvalue
  -- the container that called the constructor is the one in which the bean is sought
  have hindex : maker.registry.index = member.registry.index :=
    (hmaker.trans hinitialized.registry).trans (hplanned.index howner)
  rw [(family.index_unique maker.has member.has hindex).1] at hconstructor
  have hsameClass : construction.className = className := by
    unfold World.classOf at hclass
    rw [hplanned.merged howner] at hclass
    exact Option.some.inj (hinitialized.className.symm.trans hclass)
  rw [← hsameClass] at hmakes
  exact hhonest.eponymous.standsFor_of_makes
    (fun maker hfactory => hhonest.constructed _ _ _ maker hconstructor (hfactory ▸ hblueprint))
    hconstructor hblueprint hmakes before

/-- **What is had of a bean that is listed for a type is of the type**, unless a product is misplaced. -/
theorem Chain.bean_typed (hundefined : world.AliasesUndefined) {member : family.Member}
    (hhonest : world.Honest member.registry)
    (hname : name ∈ world.namesOfType member.registry member.ancestors type)
    (h : Chain.bean depth member.chain name world = (.ok value, after)) :
    type.accepts value = true ∨ (after.state member.registry.index).Misplaces name value := by
  obtain ⟨hown, htype⟩ := List.mem_filter.mp hname
  by_cases hany : type = .any
  · exact .inl (hany ▸ rfl)
  unfold World.isOfType at htype
  rw [beq_eq_false_iff_ne.mpr hany, Bool.false_or] at htype
  have hsought := hhonest.sought hundefined hown
  have hunmarked := hhonest.unmarked name hown
  cases hkept : (world.state member.registry.index).singletons.find? name with
  | some shared =>
    rw [hkept] at htype
    obtain ⟨processed, exposing, hexposed, rfl⟩ := Chain.bean_of_kept hsought hkept h
    show _ ∨ (exposing.state member.registry.index).Misplaces name value
    refine exposed_typed hhonest.unprocessed hunmarked
      (ClassTable.standsFor_of_serves (fun typeName label maker hshared => ?_) htype)
      (fun kept hkept' => Option.some.inj (hkept'.symm.trans hkept)) hexposed
    exact hhonest.kept name typeName label maker (hshared ▸ hkept)
  | none =>
    rw [hkept] at htype
    obtain ⟨className, hclass, hmakes⟩ := (Option.any_eq_true _ _).mp htype
    have hdefined : (world.state member.registry.index).definitions.contains name = true := by
      rcases List.mem_append.mp hown with hdefined | hsingleton
      · exact (Table.contains_iff_mem_keys _ _).mpr hdefined
      · have hcontains := (Table.contains_iff_mem_keys _ _).mpr (List.mem_filter.mp hsingleton).1
        rw [Table.contains, hkept] at hcontains
        cases hcontains
    have hadvances : world.Advances family after :=
      Work.Keeps.run ((serve_advancing family depth).1 _ name member.chain_has) h hundefined
    obtain ⟨new, hjournal, -⟩ := hadvances.fates
    obtain ⟨instance_, processed, between, exposing, hexposed, rfl, hsame, construction, hmem, hmade⟩ :=
      Chain.bean_of_none hundefined hsought hkept hdefined h hjournal
    obtain ⟨creation, earlier, hplanned, howner, hinitialized⟩ := Chain.bean_accounts h hjournal hmem
    show _ ∨ (exposing.state member.registry.index).Misplaces name value
    exact exposed_typed hhonest.unprocessed hunmarked
      (hhonest.standsFor_of_initialized hplanned howner hinitialized hmade hclass hmakes) hsame hexposed

end

/-- **The one bean of a type.** Which bean is meant is decided before any is had: it is a failure that
there is none exactly if no container of the chain has any, and that there is no single one exactly if
the nearest container that has any has several of which not one alone is primary. What is had is then the
bean that is meant, it is listed for the type by the nearest container that has any, and it is of the
type: if the containers are honest, then no other value is had unless a product is kept under the name of
a factory that does not yield it. -/
theorem Chain.namedBean_typed {start : World} (h : Reachable family start) (member : family.Member)
    (type : ValueType) :
    (start.selection type member.chain = .error (.noSuchBeanOfType type.name) ↔
      ∀ registry ancestors, registry :: ancestors <:+ member.chain →
        start.namesOfType registry ancestors type = []) ∧
    (∀ typeName names, start.selection type member.chain = .error (.noUniqueBean typeName names) ↔
      typeName = type.name ∧ ∃ registry ancestors,
        start.Nearest type member.chain registry ancestors ∧
        names = start.namesOfType registry ancestors type ∧ 1 < names.length ∧
        (names.filter fun name =>
          ((start.state registry.index).definition? name).any (·.primary)).length ≠ 1) ∧
    ∀ depth,
      (∃ between, start.Unmoved family between ∧ Chain.namedBean depth member.chain type start =
        match start.selection type member.chain with
        | .error failure => (.error (.failure failure), between)
        | .ok (part, name) => (Chain.bean depth part name >>= fun value => pure (name, value)) between) ∧
      ((∀ registry ∈ member.chain, start.Honest registry) → ∀ name value after,
        Chain.namedBean depth member.chain type start = (.ok (name, value), after) →
        ∃ registry ancestors, start.Nearest type member.chain registry ancestors ∧
          name ∈ start.namesOfType registry ancestors type ∧
          (type.accepts value = true ∨ (after.state registry.index).Misplaces name value)) := by
  refine ⟨World.selection_noSuchBean_iff, fun _ _ => World.selection_noUniqueBean_iff, fun depth => ?_⟩
  obtain ⟨between, hunmoved, hrun⟩ :=
    fetchNamed_eq (serve depth).fetch type member.chain_has (World.Unmoved.refl family start)
  refine ⟨⟨between, hunmoved, hrun⟩, fun hhonest name value after hhad => ?_⟩
  have hselected := hrun.symm.trans hhad
  cases hselection : start.selection type member.chain with
  | error failure =>
    rw [hselection] at hselected
    cases hselected
  | ok meant =>
    rw [hselection] at hselected
    obtain ⟨had, final, hbean, hend⟩ := Work.bind_eq_ok hselected
    cases hend
    obtain ⟨registry, ancestors, hpart, hnearest, hname⟩ := World.selection_eq_ok hselection
    -- looking for candidates moved nothing that being honest or of a type depends on
    obtain ⟨owner, rfl, rfl⟩ : ∃ owner : family.Member,
        owner.registry = registry ∧ owner.ancestors = ancestors :=
      ⟨⟨registry, ancestors, family.has_of_suffix member.chain_has hnearest.suffix⟩, rfl, rfl⟩
    refine ⟨owner.registry, owner.ancestors, hnearest, hname, ?_⟩
    have hbetween : between.Honest owner.registry :=
      hunmoved.honest (hhonest owner.registry (hnearest.suffix.mem List.mem_cons_self))
    have hundefined : between.AliasesUndefined := h.aliasesUndefined.of_sameSources hunmoved.sources
    rw [← hunmoved.namesOfType_eq owner] at hname
    rw [hpart] at hbean
    exact Chain.bean_typed hundefined hbetween hname hbean

/-! ### A product under another name -/

/-- A class of factories whose product is a text, and one of factories whose products are integers. -/
def valuedRegistry : Registry where
  index := 0
  classes := ClassTable.register (ClassTable.register {} "F"
    { construct := Plan.constructor (.factory "F" (.production (.always (.text "made"))) none true) []
      productType := some .text }) "G"
    { construct := Plan.constructor (.factory "G" (.production .counting) none true) []
      productType := some .int }

/-- A factory of either class. -/
def valuedOperations : List (Operation (Family.lone valuedRegistry)) :=
  let member := Registry.lone valuedRegistry
  [.register member (.definition "f" { className := some "F" }),
    .register member (.definition "g" { className := some "G" })]

/-- The factories are had, and `g` is asked for a product that goes by the name `f`. -/
def misplacingOperations : List (Operation (Family.lone valuedRegistry)) :=
  let member := Registry.lone valuedRegistry
  valuedOperations ++
    [.inquire member 1 (.bean "&f"), .inquire member 1 (.bean "&g"),
      .inquire member 1 (.product (.made 2) {} "f" true)]

theorem valuedRegistry_fulfils_text {maker : Factory Value} (hnone : maker.objectType = none)
    (hproduction : maker.production = .always (.text "made")) :
    valuedRegistry.classes.Fulfils "F" maker := by
  intro product hyields type htype
  unfold Factory.Yields at hyields
  rw [hproduction] at hyields
  obtain rfl := hyields
  rw [hnone] at htype
  obtain rfl : ValueType.text = type := Option.some.inj (htype.resolve_left (Option.some_ne_none _).symm)
  rfl

theorem valuedRegistry_fulfils_int {maker : Factory Value} (hnone : maker.objectType = none)
    (hproduction : maker.production = .counting) : valuedRegistry.classes.Fulfils "G" maker := by
  intro product hyields type htype
  unfold Factory.Yields at hyields
  rw [hproduction] at hyields
  obtain ⟨count, rfl⟩ := hyields
  rw [hnone] at htype
  obtain rfl : ValueType.int = type := Option.some.inj (htype.resolve_left (Option.some_ne_none _).symm)
  rfl

/-- The classes of the container make factories that fulfil what they are registered for. -/
theorem valuedRegistry_constructor? {className : String} {constructor : Constructor}
    (h : valuedRegistry.classes.constructor? className = some constructor) :
    ∃ product maker, valuedRegistry.classes.productType? className = some product ∧
      (∀ inputs, constructor inputs = .ok (.factory className maker)) ∧
      valuedRegistry.classes.Fulfils className maker := by
  obtain ⟨beanClass, hfound, rfl⟩ := Option.map_eq_some_iff.mp h
  unfold ClassTable.productType?
  rw [hfound]
  unfold valuedRegistry ClassTable.register at hfound
  dsimp only at hfound
  rw [Table.find?_insert, Table.find?_insert] at hfound
  split at hfound
  · next hname =>
    subst hname
    obtain rfl := Option.some.inj hfound
    exact ⟨_, _, rfl, fun _ => rfl, valuedRegistry_fulfils_int rfl rfl⟩
  · split at hfound
    · next hname =>
      subst hname
      obtain rfl := Option.some.inj hfound
      exact ⟨_, _, rfl, fun _ => rfl, valuedRegistry_fulfils_text rfl rfl⟩
    · cases hfound

/-- The container is honest as long as what it keeps are factories of its classes, and no name of a bean
is marked or an alias. -/
theorem valuedRegistry_honest {world : World}
    (hkept : ((world.state 0).singletons.entries.all fun entry =>
      match entry.2 with
      | .bean (.factory "F" _ ⟨.always (.text "made"), none, _⟩) => true
      | .bean (.factory "G" _ ⟨.counting, none, _⟩) => true
      | _ => false) = true)
    (haliases : (world.state 0).aliases.entries = [])
    (hnames : ∀ name ∈ world.ownNames valuedRegistry, asksForFactory name = false) :
    world.Honest valuedRegistry where
  eponymous := by
    refine ⟨fun className constructor _ _ h hnone _ => ?_, fun className constructor _ inputs _ h _ hmade => ?_⟩
    · obtain ⟨_, _, hproduct, -⟩ := valuedRegistry_constructor? h
      cases hproduct.symm.trans hnone
    · obtain ⟨_, maker, -, hmakes, -⟩ := valuedRegistry_constructor? h
      exact ⟨maker, Except.ok.inj (hmade.symm.trans (hmakes inputs))⟩
  constructed className constructor inputs maker h hmade := by
    obtain ⟨_, _, -, hmakes, hfulfils⟩ := valuedRegistry_constructor? h
    cases hmade.symm.trans (hmakes inputs)
    exact hfulfils
  kept name typeName label maker hsingleton := by
    have hmem : (name, Value.bean (.factory typeName label maker)) ∈
        (world.state valuedRegistry.index).singletons.entries := Table.find?_eq_some_iff_mem.mp hsingleton
    have hentry := List.all_eq_true.mp hkept _ hmem
    split at hentry
    · next heq =>
      cases heq
      exact valuedRegistry_fulfils_text rfl rfl
    · next heq =>
      cases heq
      exact valuedRegistry_fulfils_int rfl rfl
    · cases hentry
  unprocessed := rfl
  unaliased name _ := by
    show List.lookup name (world.state 0).aliases.entries = none
    rw [haliases]
    rfl
  unmarked := hnames

/-- The product of `f` is the one bean of its type. -/
theorem namedBean_typed_text :
    ∃ name value after, Chain.namedBean 1 [valuedRegistry] .text (World.after valuedOperations) =
        (.ok (name, value), after) ∧
      ∃ registry ancestors,
        (World.after valuedOperations).Nearest .text [valuedRegistry] registry ancestors ∧
        name ∈ (World.after valuedOperations).namesOfType registry ancestors .text ∧
        (ValueType.text.accepts value = true ∨
          (after.state registry.index).Misplaces name value) := by
  have hok : (Chain.namedBean 1 [valuedRegistry] .text (World.after valuedOperations)).1.isOk = true := by
    decide +kernel
  rcases hrun : Chain.namedBean 1 [valuedRegistry] .text (World.after valuedOperations) with
    ⟨stop | ⟨name, value⟩, after⟩ <;> rw [hrun] at hok
  · cases hok
  have hhonest : (World.after valuedOperations).Honest valuedRegistry :=
    valuedRegistry_honest (by decide +kernel) (by decide +kernel) (by decide +kernel)
  have htyped := Chain.namedBean_typed (⟨valuedOperations, rfl⟩ : Reachable (Family.lone valuedRegistry) _)
    (Registry.lone valuedRegistry) .text
  exact ⟨name, value, after, rfl, (htyped.2.2 1).2
    (fun registry hregistry => List.mem_singleton.mp hregistry ▸ hhonest) name value after hrun⟩

/-- The bean of the type that is had under the name `f` is an integer, made by `g`. -/
theorem not_typed_after_misplacing :
    (World.after misplacingOperations).Honest valuedRegistry ∧
      ∃ value after, Chain.namedBean 1 [valuedRegistry] .text (World.after misplacingOperations) =
          (.ok ("f", value), after) ∧
        ValueType.text.accepts value = false := by
  refine ⟨valuedRegistry_honest (by decide +kernel) (by decide +kernel) (by decide +kernel), ?_⟩
  have hgiven : (Chain.namedBean 1 [valuedRegistry] .text
      (World.after misplacingOperations)).1.toOption.map
        (fun had => (had.1, ValueType.text.accepts had.2)) = some ("f", false) := by decide +kernel
  rcases hrun : Chain.namedBean 1 [valuedRegistry] .text (World.after misplacingOperations) with
    ⟨stop | ⟨name, value⟩, after⟩ <;> rw [hrun] at hgiven
  · cases hgiven
  obtain ⟨rfl, hrefused⟩ := Prod.mk.inj (Option.some.inj hgiven)
  exact ⟨value, after, rfl, hrefused⟩

end Injector
