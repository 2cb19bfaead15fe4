import Injector.Proofs.Creation.Guard

/-!
# Beans of a type

Which beans of a container are of a type is told from what the container holds: a kept instance tells it
by itself, and of a bean of which none is kept the class is asked that its merged definition says
(`World.isOfType`). Listing the beans of a type keeps what is merged on the way, which makes no difference
to the answer (`namesForType_eq`).

If classes make what they are registered for (`ClassTable.Truthful`), an instance tells the same as the
class by which it was made, unless it is the explicit-null marker, which is of no type. So whatever is
asked of the containers, the list stays as it is, but for the beans that turned out to be the marker
(`Inquiry.namesOfType_eq`).
-/

namespace Injector

variable {family : Family}

/-! ## What is listed -/

namespace World

variable (world : World) (registry : Registry) (ancestors : Chain) (type : ValueType)

/-- The class that the merged definition of a name says, if there is one. -/
def classOf (chain : Chain) (name : String) : Option String :=
  (bareOf (world.mergedIn chain name)).bind fun definition => definition.className

/-- Whether a bean of a container is of a type. -/
def isOfType (name : String) : Bool :=
  type == .any ||
    match (world.state registry.index).singletons.find? name with
    | some shared => registry.classes.serves type shared
    | none => (world.classOf (registry :: ancestors) name).any (registry.classes.makes type)

/-- The names of a container's own beans: the defined ones, and then the singletons that have no
definition. -/
def ownNames : List String :=
  let state := world.state registry.index
  state.definitions.keys ++ state.singletons.keys.filter fun name => !state.definitions.contains name

/-- The names of a container's own beans of a type. -/
def namesOfType : List String :=
  (world.ownNames registry).filter (world.isOfType registry ancestors type)

theorem nodup_namesOfType : (world.namesOfType registry ancestors type).Nodup := by
  refine List.Nodup.filter _ (List.Nodup.append ?_ (List.Nodup.filter _ ?_) ?_)
  · exact Table.nodup_keys _
  · exact Table.nodup_keys _
  · intro name hdefined hundefined
    have hnot := (List.mem_filter.mp hundefined).2
    rw [Table.contains_iff_mem_keys _ _ |>.mpr hdefined] at hnot
    cases hnot

end World

/-- A world that keeps to a base, with the same singletons. -/
structure World.Unmoved (family : Family) (base world : World) : Prop extends
    World.Keeping family base world where
  singletons : ∀ index, (world.state index).singletons = (base.state index).singletons

theorem World.Unmoved.refl (family : Family) (base : World) : Unmoved family base base :=
  ⟨.refl family base, fun _ => rfl⟩

/-- A test that answers the same in all worlds with a property, and leaves the property as it is,
filters by that answer. -/
theorem Work.filterM_eq {α : Type} {Γ : World → Prop} {test : α → Work Bool} {answer : α → Bool}
    (h : ∀ value world, Γ world → ∃ after, test value world = (.ok (answer value), after) ∧ Γ after)
    (values : List α) :
    ∀ world, Γ world → ∃ after, values.filterM test world = (.ok (values.filter answer), after) ∧
      Γ after := by
  have aux : ∀ (rest kept : List α) (world : World), Γ world →
      ∃ after, rest.filterAuxM test kept world = (.ok ((rest.filter answer).reverse ++ kept), after) ∧
        Γ after := by
    intro rest
    induction rest with
    | nil => exact fun kept world hworld => ⟨world, rfl, hworld⟩
    | cons value rest ih =>
      intro kept world hworld
      obtain ⟨between, hvalue, hbetween⟩ := h value world hworld
      obtain ⟨after, hrest, hafter⟩ := ih (if answer value then value :: kept else kept) between hbetween
      refine ⟨after, ?_, hafter⟩
      rw [List.filterAuxM, Work.bind_apply_ok hvalue]
      cases hanswer : answer value with
      | true =>
        rw [hanswer] at hrest
        rw [List.filter_cons_of_pos hanswer, List.reverse_cons, List.append_assoc]
        exact hrest
      | false =>
        rw [hanswer] at hrest
        rw [List.filter_cons_of_neg (by simp [hanswer])]
        exact hrest
  intro world hworld
  obtain ⟨after, hrun, hafter⟩ := aux values [] world hworld
  refine ⟨after, ?_, hafter⟩
  unfold List.filterM
  rw [Work.bind_apply_ok hrun, List.append_nil, List.reverse_reverse]
  rfl

section

variable {base world : World} {registry : Registry} {ancestors : Chain}

/-- What is merged on the way moves nothing. -/
theorem World.Unmoved.keepMerged (hf : family.Has (registry :: ancestors))
    (h : base.Unmoved family world) {name : String} {merged : Merged}
    (hmerged : world.mergedIn (registry :: ancestors) name = .ok merged) :
    base.Unmoved family (world.keepMerged merged.additions) where
  toKeeping := h.toKeeping.keepMerged _
    (h.toRestsOn.mergedIn_descends _ hf name merged hmerged).derived
  singletons index :=
    (World.singletons_keepMerged merged.additions world index).trans (h.singletons index)

/-- Whether a bean is of a type is answered as the base says. -/
theorem matchesType_eq (hf : family.Has (registry :: ancestors)) (h : base.Unmoved family world)
    (type : ValueType) (name : String) :
    ∃ after, matchesType registry ancestors type name world =
        (.ok (base.isOfType registry ancestors type name), after) ∧ base.Unmoved family after := by
  unfold matchesType World.isOfType
  cases type == .any with
  | true => exact ⟨world, rfl, h⟩
  | false =>
    rw [if_neg Bool.false_ne_true, Work.state_bind_apply, h.singletons]
    cases (base.state registry.index).singletons.find? name with
    | some shared => exact ⟨world, rfl, h⟩
    | none =>
      unfold World.classOf
      rw [← h.toRestsOn.bareOf_mergedIn hf name]
      dsimp only
      rw [Work.bind_apply]
      unfold Work.attempt mergedDefinition
      rw [Work.takeMerged_apply]
      cases hmerged : world.mergedIn (registry :: ancestors) name with
      | error failure => exact ⟨world, rfl, h⟩
      | ok merged => exact ⟨_, rfl, h.keepMerged hf hmerged⟩

/-- **Which beans are of a type is listed as the base says.** -/
theorem namesForType_eq (hf : family.Has (registry :: ancestors)) (h : base.Unmoved family world)
    (type : ValueType) :
    ∃ after, namesForType registry ancestors type world =
        (.ok (base.namesOfType registry ancestors type), after) ∧ base.Unmoved family after := by
  unfold namesForType
  rw [Work.state_bind_apply, (h.sources _).1, h.singletons]
  exact Work.filterM_eq (fun name world h => matchesType_eq hf h type name) _ world h

end

/-! ## Classes that make what they are registered for -/

/-- The beans of a class bear its name: every class makes plain beans of its own name, or the
explicit-null marker, and a class of factories makes factories of its own name. -/
structure ClassTable.Eponymous (classes : ClassTable) : Prop where
  plain : ∀ className constructor inputs blueprint,
    classes.constructor? className = some constructor → classes.productType? className = none →
      constructor inputs = .ok blueprint → blueprint = .null ∨ blueprint = .plain className
  factory : ∀ className constructor product inputs blueprint,
    classes.constructor? className = some constructor → classes.productType? className = some product →
      constructor inputs = .ok blueprint → ∃ maker : Factory Value, blueprint = .factory className maker

/-- Moreover, the factories of a class tell no type of their product, or the one that the class is
registered for. -/
structure ClassTable.Truthful (classes : ClassTable) : Prop extends ClassTable.Eponymous classes where
  objectType : ∀ className constructor product inputs maker,
    classes.constructor? className = some constructor → classes.productType? className = some product →
      constructor inputs = .ok (.factory className maker) →
        maker.objectType = none ∨ maker.objectType = some product

/-- **An instance is of the types of which its class makes beans**, unless it is the explicit-null
marker. -/
theorem ClassTable.Truthful.serves_makeBean {classes : ClassTable} (h : classes.Truthful)
    {className : String} {constructor : Constructor} {inputs : BeanInputs} {blueprint : Blueprint}
    (hclass : classes.constructor? className = some constructor)
    (hmade : constructor inputs = .ok blueprint) (world : World) {type : ValueType}
    (htype : type ≠ .any) :
    classes.serves type (world.makeBean blueprint).1 =
      (classes.makes type className && !(world.makeBean blueprint).1.isNullBean) := by
  unfold ClassTable.makes
  cases hproduct : classes.productType? className with
  | none =>
    rcases h.plain className constructor inputs blueprint hclass hproduct hmade with rfl | rfl
    · exact (Bool.and_false _).symm
    · show type.accepts (.bean (.plain className (.made (world.made + 1)))) =
        ((type == .bean className) && true)
      rw [Bool.and_true]
      cases type with
      | any => exact absurd rfl htype
      | bean other =>
        show (className == other) = (ValueType.bean other == ValueType.bean className)
        by_cases hsame : className = other
        · rw [hsame, beq_self_eq_true, beq_self_eq_true]
        · rw [beq_eq_false_iff_ne.mpr hsame,
            beq_eq_false_iff_ne.mpr fun heq => hsame (ValueType.bean.inj heq).symm]
      | bool | int | float | char | text => rfl
  | some product =>
    obtain ⟨maker, rfl⟩ := h.factory className constructor product inputs blueprint hclass hproduct hmade
    show (maker.objectType.or (classes.productType? className) == some type) =
      ((product == type) && true)
    rw [hproduct, Bool.and_true]
    rcases h.objectType className constructor product inputs maker hclass hproduct hmade with
      hobject | hobject <;> rw [hobject] <;> rfl

/-! ## What stays listed -/

/-- The bean was not kept before, and what is kept now is the explicit-null marker. -/
def World.turnedNull (start after : World) (index : Nat) (name : String) : Bool :=
  !(start.state index).singletons.contains name &&
    ((after.state index).singletons.find? name).any Value.isNullBean

section

variable {start after : World}

/-- **What is of a type stays of the type**, unless it turned out to be the explicit-null marker. -/
theorem World.Advances.isOfType_eq (h : start.Advances family after)
    (hkeeping : World.Keeping family start after) (hundefined : start.AliasesUndefined)
    (member : family.Member) (htruthful : member.registry.classes.Truthful) (type : ValueType)
    (name : String) :
    after.isOfType member.registry member.ancestors type name =
      (start.isOfType member.registry member.ancestors type name &&
        (type == .any || !start.turnedNull after member.registry.index name)) := by
  obtain ⟨new, -, hfates⟩ := h.fates
  unfold World.isOfType World.turnedNull
  by_cases hany : type = .any
  · rw [hany]
    rfl
  rw [beq_eq_false_iff_ne.mpr hany, Bool.false_or, Bool.false_or, Bool.false_or]
  cases hfates member.registry.index name with
  | unchanged hsame =>
    unfold World.classOf
    rw [hsame, hkeeping.toRestsOn.bareOf_mergedIn member.has, Table.contains]
    cases (start.state member.registry.index).singletons.find? name with
    | some shared => exact (Bool.and_true _).symm
    | none => exact (Bool.and_true _).symm
  | made value hnone _ hkept _ hshares =>
    -- what was judged by its class before is judged by itself now
    obtain ⟨definition, hmerged, -, construction, -, hindex, hclass, hsucceeded, hmade⟩ := hshares.made
    have hdefined : (start.state member.registry.index).definitions.contains name = true := by
      rw [← (h.framed _).sources.1]
      exact hshares.defined
    have hclassOf : start.classOf (member.registry :: member.ancestors) name = some construction.className := by
      unfold World.classOf
      have hbare := hkeeping.toRestsOn.bareOf_of_kept (hundefined.canonicalName hdefined) hmerged
      unfold Family.Member.chain at hbare
      rw [hbare]
      exact hclass
    obtain ⟨maker, constructor, blueprint, world, hmaker, hconstructor, hblueprint, hvalue⟩ := hsucceeded
    rw [hmade] at hvalue
    obtain rfl := Option.some.inj hvalue
    rw [(family.index_unique maker.has member.has (hmaker.trans hindex)).1] at hconstructor
    rw [hnone, hkept, Table.contains, hnone, hclassOf]
    exact htruthful.serves_makeBean hconstructor hblueprint world hany

/-- A container gets no names of its own by being asked: what is kept newly is defined. -/
theorem World.Advances.ownNames_eq (h : start.Advances family after) (member : family.Member) :
    after.ownNames member.registry = start.ownNames member.registry := by
  obtain ⟨new, -, hfates⟩ := h.fates
  obtain ⟨more, hmore⟩ := (h.framed member.registry.index).singletons
  unfold World.ownNames
  dsimp only
  rw [(h.framed _).sources.1]
  refine congrArg _ ?_
  have hkeys : (after.state member.registry.index).singletons.keys =
      (start.state member.registry.index).singletons.keys ++ more.map Prod.fst := by
    unfold Table.keys
    rw [← hmore, List.map_append]
  have hnodup : (after.state member.registry.index).singletons.keys.Nodup := Table.nodup_keys _
  rw [hkeys] at hnodup
  rw [hkeys, List.filter_append]
  refine (congrArg _ (List.filter_eq_nil_iff.mpr fun name hname => ?_)).trans (List.append_nil _)
  -- it was not kept before, so it is the bean of a definition
  have hnone : (start.state member.registry.index).singletons.find? name = none := by
    rw [Table.find?_eq_none_iff, ← Bool.not_eq_true, Table.contains_iff_mem_keys]
    exact fun hbefore => List.disjoint_of_nodup_append hnodup hbefore hname
  have hkept : (after.state member.registry.index).singletons.contains name = true := by
    rw [Table.contains_iff_mem_keys, hkeys]
    exact List.mem_append_right _ hname
  cases hfates member.registry.index name with
  | unchanged hsame =>
    rw [Table.contains, hsame, hnone] at hkept
    cases hkept
  | made _ _ _ _ _ hshares =>
    rw [← (h.framed _).sources.1, hshares.defined]
    exact Bool.false_ne_true

/-- What is listed of a type stays listed, unless it turned out to be the explicit-null marker. -/
theorem World.Advances.namesOfType_eq (h : start.Advances family after)
    (hkeeping : World.Keeping family start after) (hundefined : start.AliasesUndefined)
    (member : family.Member) (htruthful : member.registry.classes.Truthful) (type : ValueType) :
    after.namesOfType member.registry member.ancestors type =
      (start.namesOfType member.registry member.ancestors type).filter fun name =>
      type == .any || !start.turnedNull after member.registry.index name := by
  unfold World.namesOfType
  rw [h.ownNames_eq, List.filter_filter]
  refine List.filter_congr fun name _ => ?_
  rw [h.isOfType_eq hkeeping hundefined member htruthful, Bool.and_comm]

end

/-- **Whatever is asked of the containers, the beans that are listed of a type stay the same**, in the
same order and each once, but for those of which the first instance turned out to be the explicit-null
marker. -/
theorem names_for_type_stay {start : World} (h : Reachable family start) (asked : family.Member)
    (depth : Nat) (inquiry : Inquiry) (member : family.Member)
    (htruthful : member.registry.classes.Truthful) (type : ValueType) :
    ∃ names : List String, names.Nodup ∧
      (namesForType member.registry member.ancestors type start).1 = .ok names ∧
      (namesForType member.registry member.ancestors type
        ((Operation.inquire asked depth inquiry).next start)).1 =
          .ok (names.filter fun name => type == .any ||
            !start.turnedNull ((Operation.inquire asked depth inquiry).next start)
              member.registry.index name) := by
  have hadvances : start.Advances family ((Operation.inquire asked depth inquiry).next start) :=
    inquiry.advancing asked depth start h.aliasesUndefined
  have hkeeping : World.Keeping family start ((Operation.inquire asked depth inquiry).next start) :=
    (World.container_keeping family start).answer asked.has (fun _ _ h => h.of_states rfl) depth inquiry
      start (.refl family start)
  obtain ⟨_, hbefore, -⟩ := namesForType_eq member.has (World.Unmoved.refl family start) type
  obtain ⟨_, hafter, -⟩ := namesForType_eq member.has (World.Unmoved.refl family _) type
  refine ⟨start.namesOfType member.registry member.ancestors type, start.nodup_namesOfType _ _ _,
    congrArg Prod.fst hbefore, ?_⟩
  rw [← hadvances.namesOfType_eq hkeeping h.aliasesUndefined member htruthful]
  exact congrArg Prod.fst hafter

/-! ### A class of explicit-null markers -/

/-- A class that makes the explicit-null marker, and one of plain beans. -/
def markerRegistry : Registry where
  index := 0
  classes := ClassTable.register (ClassTable.register {} "N" { construct := Plan.constructor .null [] })
    "P" { construct := Plan.constructor (.plain "P") [] }

/-- Two beans of either class. -/
def markerOperations : List (Operation (Family.lone markerRegistry)) :=
  let member := Registry.lone markerRegistry
  [.register member (.definition "n" { className := some "N" }),
    .register member (.definition "p" { className := some "P" })]

theorem markerRegistry_truthful : markerRegistry.classes.Truthful := by
  have hclass : ∀ className beanClass, markerRegistry.classes.classes.find? className = some beanClass →
      beanClass.productType = none ∧
        ∀ inputs blueprint, beanClass.construct inputs = .ok blueprint →
          blueprint = .null ∨ blueprint = .plain className := by
    intro className beanClass hfound
    unfold markerRegistry ClassTable.register at hfound
    dsimp only at hfound
    rw [Table.find?_insert, Table.find?_insert] at hfound
    split at hfound
    · next hname =>
      obtain rfl := Option.some.inj hfound
      exact ⟨rfl, fun _ _ hmade => .inr (hname ▸ (Except.ok.inj hmade).symm)⟩
    · split at hfound
      · obtain rfl := Option.some.inj hfound
        exact ⟨rfl, fun _ _ hmade => .inl (Except.ok.inj hmade).symm⟩
      · cases hfound
  have hnone : ∀ className, markerRegistry.classes.productType? className = none := by
    intro className
    refine Option.bind_eq_none_iff.mpr fun beanClass hfound => ?_
    exact (hclass className beanClass hfound).1
  refine ⟨⟨fun className constructor inputs blueprint hconstructor _ hmade => ?_,
    fun className _ product _ _ _ hproduct _ => ?_⟩, fun className _ product _ _ _ hproduct _ => ?_⟩
  · obtain ⟨beanClass, hfound, rfl⟩ := Option.map_eq_some_iff.mp hconstructor
    exact (hclass className beanClass hfound).2 inputs blueprint hmade
  · rw [hnone] at hproduct
    cases hproduct
  · rw [hnone] at hproduct
    cases hproduct

/-- The beans of a class are listed once more after one of them was had, if it is no marker. -/
theorem names_for_type_stay_marker :
    ∃ names : List String, names.Nodup ∧
      (namesForType markerRegistry [] (.bean "N") (World.after markerOperations)).1 = .ok names ∧
      (namesForType markerRegistry [] (.bean "N")
        ((Operation.inquire (Registry.lone markerRegistry) 1 (.bean "n")).next
          (World.after markerOperations))).1 =
        .ok (names.filter fun name => ValueType.bean "N" == .any ||
          !(World.after markerOperations).turnedNull
            ((Operation.inquire (Registry.lone markerRegistry) 1 (.bean "n")).next
              (World.after markerOperations)) 0 name) :=
  names_for_type_stay ⟨markerOperations, rfl⟩ (Registry.lone markerRegistry) 1 (.bean "n")
    (Registry.lone markerRegistry) markerRegistry_truthful (.bean "N")

/-- The bean `n` is of its class until it was had. -/
theorem not_listed_after_marker :
    markerRegistry.classes.Truthful ∧
      (namesForType markerRegistry [] (.bean "N") (World.after markerOperations)).1.toOption =
        some ["n"] ∧
      (namesForType markerRegistry [] (.bean "N")
        ((Operation.inquire (Registry.lone markerRegistry) 1 (.bean "n")).next
          (World.after markerOperations))).1.toOption = some [] :=
  ⟨markerRegistry_truthful, by decide +kernel⟩

end Injector
