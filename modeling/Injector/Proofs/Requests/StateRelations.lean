import Injector.Proofs.Requests.Runs

/-!
# Relations between states that requests keep

What each of the pieces of a container's work does to the world, as a condition on a relation under
which the piece keeps it. Relations that look at every state by itself (`Statewise`) are kept by all of
the pieces as soon as they hold for the few ways in which a state ever changes (`StateRelation`), and so
by every request (`StateRelation.container`, `StateRelation.answer`).

The first such relation is that definitions and aliases are the same before and after.
-/

namespace Injector

namespace Work

variable {R : World → World → Prop}

/-! ## Merging, constructing, making products -/

/-- What was merged is kept, and what was not is not. -/
theorem takeMerged_apply (found : World → Except Failure Merged) (world : World) :
    takeMerged found world =
      match found world with
      | .ok merged => (.ok merged.definition, world.keepMerged merged.additions)
      | .error failure => (.error (.failure failure), world) := by
  unfold takeMerged
  rw [get_bind_apply, bind_apply]
  cases found world <;> rfl

theorem takeMerged_eq_ok {found : World → Except Failure Merged} {world after : World}
    {definition : Definition} (h : takeMerged found world = (.ok definition, after)) :
    ∃ merged, found world = .ok merged ∧ definition = merged.definition ∧
      after = world.keepMerged merged.additions := by
  rw [takeMerged_apply] at h
  cases hfound : found world with
  | error failure =>
    rw [hfound] at h
    cases h
  | ok merged =>
    rw [hfound] at h
    cases h
    exact ⟨merged, rfl, rfl, rfl⟩

/-- Nothing is kept if merging fails. -/
theorem takeMerged_eq_error {found : World → Except Failure Merged} {world after : World} {stop : Stop}
    (h : takeMerged found world = (.error stop, after)) : after = world := by
  rw [takeMerged_apply] at h
  cases hfound : found world with
  | error failure =>
    rw [hfound] at h
    cases h
    rfl
  | ok merged =>
    rw [hfound] at h
    cases h

theorem keeps_takeMerged (hrefl : ∀ world, R world world)
    {found : World → Except Failure Merged}
    (hkeep : ∀ world merged, found world = .ok merged → R world (world.keepMerged merged.additions)) :
    Keeps R (takeMerged found) := by
  intro world
  rw [takeMerged_apply]
  cases hfound : found world with
  | error failure => exact hrefl world
  | ok merged => exact hkeep world merged hfound

theorem keeps_construct {registry : Registry} {owner : Owner} {className : String}
    {constructor : Constructor} {inputs : BeanInputs}
    (h : ∀ (world : World) (made : Nat) (construction : Construction),
      R world ({ world with made := made }.noting (.constructed construction))) :
    Keeps R (construct registry owner className constructor inputs) := by
  intro world
  unfold construct
  cases constructor inputs with
  | error cause => exact h world world.made _
  | ok blueprint =>
    cases blueprint with
    | null => exact h world world.made _
    | plain typeName => exact h world (world.made + 1) _
    | factory typeName maker => exact h world (world.made + 1) _

/-- Asking a factory changes how often it was asked and how many beans were made. -/
theorem askFactory_eq (world : World) (label : BeanLabel) (maker : Factory Value) :
    ∃ made tallies, (world.askFactory label maker).2 = { world with made := made, tallies := tallies } := by
  unfold World.askFactory
  cases maker.production with
  | always product => exact ⟨_, _, rfl⟩
  | fresh className => exact ⟨_, _, rfl⟩
  | failing cause => exact ⟨_, _, rfl⟩
  | counting => exact ⟨_, _, rfl⟩
  | answering answer => exact ⟨_, _, rfl⟩

theorem keeps_newProduct (htrans : ∀ a b c, R a b → R b c → R a c) {label : BeanLabel}
    {maker : Factory Value}
    (hask : ∀ (world : World) (made : Nat) (tallies : List (BeanLabel × Nat)),
      R world { world with made := made, tallies := tallies })
    (hproduced : ∀ world product, R world (world.noting (.produced label product))) :
    Keeps R (newProduct label maker) := by
  intro world
  obtain ⟨made, tallies, hafter⟩ := askFactory_eq world label maker
  unfold newProduct
  rw [get_bind_apply]
  rcases hrun : world.askFactory label maker with ⟨result, after⟩
  rw [hrun] at hafter
  dsimp only at hafter ⊢
  subst hafter
  rw [set_bind_apply]
  cases result with
  | error failure => exact hask world made tallies
  | ok product => exact htrans _ _ _ (hask world made tallies) (hproduced _ product)

theorem keeps_postProcess (hrefl : ∀ world, R world world) {registry : Registry} {name : String}
    {product : Value} : Keeps R (postProcess registry name product) := by
  intro world
  unfold postProcess
  cases registry.postProcessor with
  | none => exact hrefl world
  | some process =>
    dsimp only
    cases process name product with
    | error failure => exact hrefl world
    | ok processed => exact hrefl world

theorem keeps_freshProduct (hrefl : ∀ world, R world world) (htrans : ∀ a b c, R a b → R b c → R a c)
    {registry : Registry} {label : BeanLabel} {maker : Factory Value} {name : String}
    {processed : Bool} (hnew : Keeps R (newProduct label maker)) :
    Keeps R (freshProduct registry label maker name processed) := by
  refine keeps_bind htrans (keeps_explain _ hnew) fun made => ?_
  split
  · exact keeps_explain _ (keeps_postProcess hrefl)
  · exact hrefl

theorem keeps_sharedProduct (hrefl : ∀ world, R world world)
    (htrans : ∀ a b c, R a b → R b c → R a c) {registry : Registry} {name : String}
    {holder : Option Value} {make : Work Value} (hmake : Keeps R make)
    (hkeep : ∀ world product, R world (world.withState registry.index
      { world.state registry.index with
        products := (world.state registry.index).products.insertNew name product })) :
    Keeps R (sharedProduct registry name holder make) := by
  have hK := compositional_keeps hrefl htrans
  unfold sharedProduct
  cases holder with
  | none => exact hmake
  | some value =>
    refine hK.bind (hK.state registry) fun state => ?_
    split
    · exact hK.pure _
    · exact hK.bind hmake fun product =>
        hK.bind (keeps_update fun world => hkeep world product) fun _ => hK.pure _

theorem keeps_productOf (hrefl : ∀ world, R world world) (htrans : ∀ a b c, R a b → R b c → R a c)
    {registry : Registry} {label : BeanLabel} {maker : Factory Value} {name : String}
    {processed : Bool} (hnew : Keeps R (newProduct label maker))
    (hkeep : ∀ world product, R world (world.withState registry.index
      { world.state registry.index with
        products := (world.state registry.index).products.insertNew name product }))
    (hgiven : ∀ world product holder,
      R world (world.noting (.given registry.index name label product holder))) :
    Keeps R (productOf registry label maker name processed) := by
  have hK := compositional_keeps hrefl htrans
  have hfresh : Keeps R (freshProduct registry label maker name processed) :=
    keeps_freshProduct hrefl htrans hnew
  exact hK.bind (hK.state registry) fun state =>
    hK.bind (keeps_sharedProduct hrefl htrans hfresh hkeep) fun product =>
      hK.bind (keeps_note fun world => hgiven world product _) fun _ => hK.pure _

/-! ## Noting dependencies -/

/-- Noting that a bean depends on another changes nothing but the links between beans. -/
theorem noteDependent_eq (state : State) (name dependent : String) :
    ∃ dependents dependencies, state.noteDependent name dependent =
      { state with dependents := dependents, dependencies := dependencies } := by
  unfold State.noteDependent
  dsimp only
  split
  · exact ⟨state.dependents, state.dependencies, rfl⟩
  · exact ⟨_, _, rfl⟩

theorem keeps_noteDependent {registry : Registry} {name dependent : String}
    (h : ∀ (world : World) (dependents dependencies contained : Table NameSet),
      R world (world.withState registry.index
        { world.state registry.index with
          dependents := dependents, dependencies := dependencies, contained := contained })) :
    Keeps R (registry.noteDependent name dependent) := by
  refine keeps_update fun world => ?_
  obtain ⟨dependents, dependencies, hafter⟩ :=
    noteDependent_eq (world.state registry.index) name dependent
  rw [hafter]
  exact h world dependents dependencies _

/-- Noting that a bean was made for another changes nothing but the links between beans. -/
theorem noteContained_eq (state : State) (inner outer : String) :
    ∃ dependents dependencies contained, state.noteContained inner outer =
      { state with
        dependents := dependents, dependencies := dependencies, contained := contained } := by
  unfold State.noteContained
  split
  · exact ⟨state.dependents, state.dependencies, state.contained, rfl⟩
  · obtain ⟨dependents, dependencies, hafter⟩ := noteDependent_eq
      { state with contained := State.link state.contained outer inner } inner outer
    exact ⟨dependents, dependencies, _, hafter⟩

theorem keeps_noteContained {registry : Registry}
    {inner outer : String}
    (h : ∀ (world : World) (dependents dependencies contained : Table NameSet),
      R world (world.withState registry.index
        { world.state registry.index with
          dependents := dependents, dependencies := dependencies, contained := contained })) :
    Keeps R (registry.noteContained inner outer) := by
  refine keeps_update fun world => ?_
  obtain ⟨dependents, dependencies, contained, hafter⟩ :=
    noteContained_eq (world.state registry.index) inner outer
  rw [hafter]
  exact h world dependents dependencies contained

/-! ## Creating -/

theorem keeps_guarded (hrefl : ∀ world, R world world) (htrans : ∀ a b c, R a b → R b c → R a c)
    {registry : Registry} {name : String} {work : Work Value} (hwork : Keeps R work)
    (hset : ∀ (world : World) (names : NameSet), R world (world.withState registry.index
      { world.state registry.index with inCreation := names })) :
    Keeps R (guarded registry name work) := by
  have hK := compositional_keeps hrefl htrans
  refine hK.bind (hK.state registry) fun state => ?_
  split
  · exact hK.fail _
  · exact hK.bind (keeps_update fun world => hset world _) fun _ =>
      keeps_endingWith htrans hwork fun world => hset world _

theorem keeps_singletonOr (hrefl : ∀ world, R world world)
    (htrans : ∀ a b c, R a b → R b c → R a c) {registry : Registry} {name : String}
    {create : Work Value} (hcreate : Keeps R create)
    (hkeep : ∀ world made, R world (world.withState registry.index
      { world.state registry.index with
        singletons := (world.state registry.index).singletons.insertNew name made })) :
    Keeps R (singletonOr registry name create) := by
  have hK := compositional_keeps hrefl htrans
  refine hK.bind (hK.state registry) fun state => ?_
  split
  · exact hK.pure _
  · exact hK.bind hcreate fun made =>
      hK.bind (keeps_update fun world => hkeep world made) fun _ =>
        hK.bind (hK.state registry) fun _ => hK.pure _

/-- The instance of a bean: its creation is guarded, and a singleton is kept. -/
theorem keeps_instanceOf (hrefl : ∀ world, R world world) (htrans : ∀ a b c, R a b → R b c → R a c)
    {handler : Handler} {depth : Nat} {registry : Registry} {ancestors : Chain} {name : String}
    {merged : Definition}
    (hinstantiate : Keeps R (instantiate handler depth registry ancestors name
      (.merged registry.index name) merged))
    (hset : ∀ (world : World) (names : NameSet), R world (world.withState registry.index
      { world.state registry.index with inCreation := names }))
    (hkeep : ∀ world made, R world (world.withState registry.index
      { world.state registry.index with
        singletons := (world.state registry.index).singletons.insertNew name made })) :
    Keeps R (instanceOf handler depth registry ancestors name merged) := by
  have hcreate : Keeps R (guarded registry name _) :=
    keeps_guarded hrefl htrans hinstantiate hset
  unfold instanceOf
  split
  · exact keeps_singletonOr hrefl htrans hcreate hkeep
  · exact hcreate

end Work

/-! ## Relations of states that all pieces keep -/

theorem Statewise.keepMerged {Q : State → State → Prop} (hrefl : ∀ state, Q state state)
    (htrans : ∀ a b c, Q a b → Q b c → Q a c)
    (hkeep : ∀ (state : State) (name : String) (definition : Definition),
      Q state { state with merged := state.merged.insertNew name definition })
    (additions : List (Nat × String × Definition)) :
    ∀ world : World, Statewise Q world (world.keepMerged additions) := by
  induction additions with
  | nil => exact Statewise.refl hrefl
  | cons addition rest ih =>
    intro world
    obtain ⟨index, name, definition⟩ := addition
    exact Statewise.trans htrans _ _ _ (Statewise.withState hrefl (hkeep _ name definition)) (ih _)

theorem World.journal_keepMerged (additions : List (Nat × String × Definition)) :
    ∀ world : World, (world.keepMerged additions).journal = world.journal := by
  induction additions with
  | nil => exact fun _ => rfl
  | cons addition rest ih => exact fun world => ih _

theorem World.singletons_keepMerged (additions : List (Nat × String × Definition)) (world : World)
    (index : Nat) :
    ((world.keepMerged additions).state index).singletons = (world.state index).singletons :=
  Statewise.keepMerged (Q := fun state after => after.singletons = state.singletons) (fun _ => rfl)
    (fun _ _ _ hab hbc => hbc.trans hab) (fun _ _ _ => rfl) additions world index

/-- A relation that holds for each of the ways in which a piece changes a state. -/
structure StateRelation (Q : State → State → Prop) : Prop where
  refl : ∀ state, Q state state
  trans : ∀ a b c, Q a b → Q b c → Q a c
  noteDependent : ∀ (state : State) (name dependent : String),
    Q state (state.noteDependent name dependent)
  noteContained : ∀ (state : State) (inner outer : String), Q state (state.noteContained inner outer)
  keepMerged : ∀ (state : State) (name : String) (definition : Definition),
    Q state { state with merged := state.merged.insertNew name definition }
  learn : ∀ (state : State) (name : String) (change : Definition → Definition),
    Q state { state with merged := state.merged.adjust name change }
  inCreation : ∀ (state : State) (names : NameSet), Q state { state with inCreation := names }
  keepSingleton : ∀ (state : State) (name : String) (value : Value),
    Q state { state with singletons := state.singletons.insertNew name value }
  keepProduct : ∀ (state : State) (name : String) (value : Value),
    Q state { state with products := state.products.insertNew name value }

/-- A relation of journals that holds if an event that is allowed is noted. -/
structure JournalRelation (allowed : Event → Prop) (J : List Event → List Event → Prop) : Prop where
  refl : ∀ journal, J journal journal
  trans : ∀ a b c, J a b → J b c → J a c
  cons : ∀ event journal, allowed event → J journal (event :: journal)

namespace StateRelation

variable {Q : State → State → Prop} (hQ : StateRelation Q)

include hQ

theorem statewise_refl (world : World) : Statewise Q world world :=
  Statewise.refl hQ.refl world

theorem statewise_trans (a b c : World) : Statewise Q a b → Statewise Q b c → Statewise Q a c :=
  Statewise.trans hQ.trans a b c

theorem statewise_withState {world : World} {index : Nat} {state : State} :
    Q (world.state index) state → Statewise Q world (world.withState index state) :=
  Statewise.withState hQ.refl

theorem statewise_keepMerged (additions : List (Nat × String × Definition)) (world : World) :
    Statewise Q world (world.keepMerged additions) :=
  Statewise.keepMerged hQ.refl hQ.trans hQ.keepMerged additions world

theorem statewise_learn (world : World) (owner : Owner) (steps : List Step) (lesson : Lesson) :
    Statewise Q world (world.learn owner steps lesson) := by
  cases owner with
  | nothing => exact hQ.statewise_refl world
  | bench => exact hQ.statewise_refl world
  | merged index name => exact hQ.statewise_withState (hQ.learn _ name _)

end StateRelation

namespace JournalRelation

variable {allowed : Event → Prop} {J : List Event → List Event → Prop}
  (hJ : JournalRelation allowed J) {Q : State → State → Prop} (hQ : StateRelation Q)

include hJ hQ

theorem related_refl (world : World) :
    Statewise Q world world ∧ J world.journal world.journal :=
  ⟨hQ.statewise_refl world, hJ.refl _⟩

theorem related_trans (a b c : World) (hab : Statewise Q a b ∧ J a.journal b.journal)
    (hbc : Statewise Q b c ∧ J b.journal c.journal) : Statewise Q a c ∧ J a.journal c.journal :=
  ⟨hQ.statewise_trans a b c hab.1 hbc.1, hJ.trans _ _ _ hab.2 hbc.2⟩

theorem compositional :
    Work.Compositional fun _ work =>
      work.Keeps fun world after => Statewise Q world after ∧ J world.journal after.journal :=
  Work.compositional_keeps (hJ.related_refl hQ) (hJ.related_trans hQ)

end JournalRelation

namespace StateRelation

variable {Q : State → State → Prop} (hQ : StateRelation Q)

include hQ

/-- What is done for every bean keeps such a relation together with one of journals that allows for
naming nested beans and making products. -/
theorem housekeeping_with (family : Family) {J : List Event → List Event → Prop}
    {allowed : Event → Prop} (hJ : JournalRelation allowed J)
    (hnamed : ∀ index wanted given, allowed (.named index wanted given))
    (hproduced : ∀ label product, allowed (.produced label product))
    (hgiven : ∀ index name label product holder, allowed (.given index name label product holder)) :
    Housekeeping family fun _ work =>
      work.Keeps fun world after => Statewise Q world after ∧ J world.journal after.journal where
  toComposable := (hJ.compositional hQ).toComposable
  named _ _ _ world := ⟨hQ.statewise_refl world, hJ.cons _ _ (hnamed _ _ _)⟩
  learn owner steps lesson world := by
    refine ⟨hQ.statewise_learn world owner steps lesson, ?_⟩
    cases owner <;> exact hJ.refl _
  noteDependent _ _ _ := Work.keeps_update fun _ =>
    ⟨hQ.statewise_withState (hQ.noteDependent _ _ _), hJ.refl _⟩
  noteContained _ _ _ := Work.keeps_update fun _ =>
    ⟨hQ.statewise_withState (hQ.noteContained _ _ _), hJ.refl _⟩
  merged _ _ := Work.keeps_takeMerged (hJ.related_refl hQ) fun world merged _ =>
    ⟨hQ.statewise_keepMerged merged.additions _, World.journal_keepMerged _ world ▸ hJ.refl _⟩
  mergedNested _ _ _ _ := Work.keeps_takeMerged (hJ.related_refl hQ) fun world merged _ =>
    ⟨hQ.statewise_keepMerged merged.additions _, World.journal_keepMerged _ world ▸ hJ.refl _⟩
  product _ _ _ _ _ :=
    Work.keeps_productOf (hJ.related_refl hQ) (hJ.related_trans hQ)
      (Work.keeps_newProduct (hJ.related_trans hQ)
        (fun world _ _ => ⟨hQ.statewise_refl world, hJ.refl _⟩)
        fun world _ => ⟨hQ.statewise_refl world, hJ.cons _ _ (hproduced _ _)⟩)
      (fun _ _ => ⟨hQ.statewise_withState (hQ.keepProduct _ _ _), hJ.refl _⟩)
      fun world _ _ => ⟨hQ.statewise_refl world, hJ.cons _ _ (hgiven _ _ _ _ _)⟩

/-- **All work of containers keeps such a relation together with one of journals.** -/
theorem container_with (family : Family) {J : List Event → List Event → Prop}
    (hJ : JournalRelation (fun _ => True) J) :
    Container family fun _ work =>
      work.Keeps fun world after => Statewise Q world after ∧ J world.journal after.journal where
  toHousekeeping := hQ.housekeeping_with family hJ (fun _ _ _ => trivial) (fun _ _ => trivial)
    fun _ _ _ _ _ => trivial
  tooDeep := (hJ.compositional hQ).tooDeep
  served _ _ _ world := ⟨hQ.statewise_refl world, hJ.cons _ _ trivial⟩
  construct _ _ _ _ _ := Work.keeps_construct fun world _ _ =>
    ⟨hQ.statewise_refl world, hJ.cons _ _ trivial⟩
  guarded _ _ _ hwork :=
    Work.keeps_guarded (hJ.related_refl hQ) (hJ.related_trans hQ) hwork
      fun _ _ => ⟨hQ.statewise_withState (hQ.inCreation _ _), hJ.refl _⟩
  singletonOr _ _ _ hcreate :=
    Work.keeps_singletonOr (hJ.related_refl hQ) (hJ.related_trans hQ) hcreate
      fun _ _ => ⟨hQ.statewise_withState (hQ.keepSingleton _ _ _), hJ.refl _⟩

/-- **All work of containers keeps such a relation.** -/
theorem container (family : Family) :
    Container family (fun _ work => work.Keeps (Statewise Q)) := by
  have h := hQ.container_with family (J := fun _ _ => True)
    ⟨fun _ => trivial, fun _ _ _ _ _ => trivial, fun _ _ _ => trivial⟩
  simpa only [and_true] using h

/-- Asking keeps such a relation. -/
theorem answer {family : Family} (member : family.Member) (depth : Nat) (inquiry : Inquiry) :
    (inquiry.answer depth member.registry member.ancestors).Keeps (Statewise Q) :=
  (hQ.container family).answer member.has (fun _ => hQ.statewise_refl) depth inquiry

end StateRelation

/-! ## Definitions and aliases -/

/-- The state has the same definitions and aliases. -/
def State.SameSources (state after : State) : Prop :=
  after.definitions = state.definitions ∧ after.aliases = state.aliases

theorem State.sameSources_symm {world after : World} (h : Statewise State.SameSources world after) :
    Statewise State.SameSources after world :=
  fun index => ⟨(h index).1.symm, (h index).2.symm⟩

theorem State.stateRelation_sameSources : StateRelation State.SameSources where
  refl _ := ⟨rfl, rfl⟩
  trans _ _ _ hab hbc := ⟨hbc.1.trans hab.1, hbc.2.trans hab.2⟩
  noteDependent state name dependent := by
    obtain ⟨dependents, dependencies, heq⟩ := Work.noteDependent_eq state name dependent
    exact heq ▸ ⟨rfl, rfl⟩
  noteContained state inner outer := by
    obtain ⟨dependents, dependencies, contained, heq⟩ := Work.noteContained_eq state inner outer
    exact heq ▸ ⟨rfl, rfl⟩
  keepMerged _ _ _ := ⟨rfl, rfl⟩
  learn _ _ _ := ⟨rfl, rfl⟩
  inCreation _ _ := ⟨rfl, rfl⟩
  keepSingleton _ _ _ := ⟨rfl, rfl⟩
  keepProduct _ _ _ := ⟨rfl, rfl⟩

/-- **Asking changes neither definitions nor aliases.** -/
theorem Inquiry.sameSources {family : Family} (member : family.Member) (depth : Nat)
    (inquiry : Inquiry) :
    (inquiry.answer depth member.registry member.ancestors).Keeps (Statewise State.SameSources) :=
  State.stateRelation_sameSources.answer member depth inquiry

end Injector
