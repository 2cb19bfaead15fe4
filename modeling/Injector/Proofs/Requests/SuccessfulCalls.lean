import Injector.Proofs.Autowiring.Candidates
import Injector.Proofs.Creation.Guard
import Injector.Proofs.Dependence.Links

/-!
# Calls that successful work has made

Work that succeeds has made calls that succeeded: having the inputs of a bean has resolved every part of
its definition (`Resolution.inputs_eq_ok`), looking a bean up has had it, and so on. A call is told by
the worlds before and after it. Whatever was done, registered and linked before a world stays so in the
worlds after it (`World.Grows`), so that a call can be placed between two worlds (`World.Obtained`).

Beans that have to exist first are had one after the other (`World.HadInOrder`).
-/

namespace Injector

/-! ## What stays -/

namespace State

/-- Whatever is noted to depend on a bean is noted to have it as a dependency. -/
def Mirrored (state : State) : Prop :=
  ∀ name dependent, Links state.dependents name dependent → Links state.dependencies dependent name

theorem Mirrored.noteDependent {state : State} (h : state.Mirrored) (name dependent : String) :
    (state.noteDependent name dependent).Mirrored := by
  unfold State.noteDependent
  dsimp only
  split
  · exact h
  · intro other linked hlink
    rcases (mem_linksOf_link _ _ _ _ _).mp hlink with ⟨rfl, rfl⟩ | hold
    · exact (mem_linksOf_link _ _ _ _ _).mpr (.inl ⟨rfl, rfl⟩)
    · exact (mem_linksOf_link _ _ _ _ _).mpr (.inr (h other linked hold))

theorem Mirrored.noteContained {state : State} (h : state.Mirrored) (inner outer : String) :
    (state.noteContained inner outer).Mirrored := by
  unfold State.noteContained
  split
  · exact h
  · refine Mirrored.noteDependent ?_ inner outer
    exact h

/-- A bean is noted to depend on what a name stands for. -/
def Noted (state : State) (name dependent : String) : Prop :=
  Links state.dependents (state.canonicalName name) dependent

/-- Definitions and aliases are the same, and singletons and links have only grown. What is newly
contained is noted to be depended on. -/
structure Grown (state after : State) : Prop where
  sources : state.SameSources after
  singletons : state.singletons.entries <+: after.singletons.entries
  dependents : LinksGrow state.dependents after.dependents
  dependencies : LinksGrow state.dependencies after.dependencies
  contained : LinksGrow state.contained after.contained
  mirrored : state.Mirrored → after.Mirrored
  containing : ∀ outer inner, inner ∈ after.containedIn outer →
    inner ∈ state.containedIn outer ∨ after.Noted inner outer

theorem Grown.refl (state : State) : state.Grown state where
  sources := ⟨rfl, rfl⟩
  singletons := List.prefix_refl _
  dependents := .refl _
  dependencies := .refl _
  contained := .refl _
  mirrored := id
  containing _ _ := .inl

theorem Grown.canonicalName {state after : State} (h : state.Grown after) (name : String) :
    after.canonicalName name = state.canonicalName name :=
  World.canonicalName_congr h.sources.2 name

/-- What is noted stays noted. -/
theorem Grown.noted {state after : State} (h : state.Grown after) {name dependent : String}
    (hnoted : state.Noted name dependent) : after.Noted name dependent := by
  unfold Noted
  rw [h.canonicalName]
  exact (h.dependents.names _).subset hnoted

theorem Grown.trans (first second third : State) (h : first.Grown second) (h' : second.Grown third) :
    first.Grown third where
  sources := ⟨h'.sources.1.trans h.sources.1, h'.sources.2.trans h.sources.2⟩
  singletons := h.singletons.trans h'.singletons
  dependents := h.dependents.trans h'.dependents
  dependencies := h.dependencies.trans h'.dependencies
  contained := h.contained.trans h'.contained
  mirrored hm := h'.mirrored (h.mirrored hm)
  containing outer inner hinner := by
    rcases h'.containing outer inner hinner with hbetween | hnoted
    · exact (h.containing outer inner hbetween).imp_right h'.noted
    · exact .inr hnoted

theorem Grown.of_framed {state after : State} (h : state.Framed after)
    (hmirrored : state.Mirrored → after.Mirrored)
    (hcontaining : ∀ outer inner, inner ∈ after.containedIn outer →
      inner ∈ state.containedIn outer ∨ after.Noted inner outer) : state.Grown after where
  sources := h.sources
  singletons := h.singletons
  dependents := h.dependents
  dependencies := h.dependencies
  contained := h.contained
  mirrored := hmirrored
  containing := hcontaining

theorem stateRelation_grown : StateRelation Grown where
  refl := .refl
  trans := .trans
  noteDependent state name dependent := by
    refine .of_framed (.noteDependent state name dependent) (·.noteDependent name dependent)
      fun outer inner hinner => .inl ?_
    unfold State.noteDependent containedIn at hinner
    dsimp only at hinner
    split at hinner <;> exact hinner
  noteContained state inner outer := by
    refine .of_framed (.noteContained state inner outer) (·.noteContained inner outer)
      fun outer' inner' hinner => or_iff_not_imp_left.mpr fun hold => ?_
    obtain ⟨heq, rfl, rfl⟩ := noteContained_new hold hinner
    have hlink := links_noteDependent
      { state with contained := link state.contained outer' inner' } inner' outer'
    unfold Noted
    rw [World.canonicalName_congr (Framed.noteContained state inner' outer').sources.2, heq]
    exact hlink
  keepMerged state _ _ := { Grown.refl state with }
  learn state _ _ := { Grown.refl state with }
  inCreation state _ := { Grown.refl state with }
  keepSingleton state _ _ := { Grown.refl state with singletons := Table.prefix_insertNew _ _ _ }
  keepProduct state _ _ := { Grown.refl state with }

end State

namespace World

/-- Whatever was done, registered and linked before is so afterwards. -/
def Grows (world after : World) : Prop :=
  Statewise State.Grown world after ∧ world.journal <:+ after.journal

theorem Grows.refl (world : World) : world.Grows world :=
  ⟨Statewise.refl .refl world, List.suffix_refl _⟩

theorem Grows.trans {first second third : World} (h : first.Grows second) (h' : second.Grows third) :
    first.Grows third :=
  ⟨Statewise.trans State.Grown.trans _ _ _ h.1 h'.1, h.2.trans h'.2⟩

/-- A name that is known stays known. -/
theorem Grows.knows {world after : World} (h : world.Grows after) {chain : Chain} {name : String}
    (hknown : world.knows chain name = true) : after.knows chain name = true := by
  obtain ⟨registry, hmem, hlocal⟩ := List.any_eq_true.mp hknown
  refine List.any_eq_true.mpr ⟨registry, hmem, ?_⟩
  have hgrown := h.1 registry.index
  unfold State.containsLocal at hlocal ⊢
  rw [hgrown.canonicalName, hgrown.sources.1]
  rcases Bool.or_eq_true_iff.mp hlocal with hkept | hdefined
  · obtain ⟨value, hvalue⟩ := (Table.contains_iff_find? _ _).mp hkept
    exact Bool.or_eq_true_iff.mpr
      (.inl (Table.contains_of_find? (Table.find?_of_prefix hgrown.singletons hvalue)))
  · exact Bool.or_eq_true_iff.mpr (.inr hdefined)

/-- **Whatever containers do, what was done before stays done.** -/
theorem container_grows (family : Family) :
    Container family fun _ work => work.Keeps Grows :=
  State.stateRelation_grown.container_with family
    ⟨List.suffix_refl, fun _ _ _ => List.IsSuffix.trans, fun _ _ _ => List.suffix_cons _ _⟩

end World

/-! ## Parts of a definition -/

namespace Resolution

/-- A part of a definition was resolved between two worlds. -/
def Resolved (r : Resolution) (world after : World) (leaf : RawValue) : Prop :=
  ∃ path steps before value between, world.Grows before ∧
    r.resolve path steps leaf before = (.ok value, between) ∧ between.Grows after

theorem Resolved.mono {r : Resolution} {world before between after : World} {leaf : RawValue}
    (h : r.Resolved before between leaf) (hbefore : world.Grows before)
    (hafter : between.Grows after) : r.Resolved world after leaf := by
  obtain ⟨path, steps, first, value, second, hfirst, hrun, hsecond⟩ := h
  exact ⟨path, steps, first, value, second, hbefore.trans hfirst, hrun, hsecond.trans hafter⟩

theorem grows_learn (owner : Owner) (steps : List Step) (lesson : Lesson) :
    (modify fun world => world.learn owner steps lesson : Work Unit).Keeps World.Grows :=
  (World.container_grows (Family.ofChain [] List.nodup_nil)).learn owner steps lesson

theorem composable_grows : Work.Composable fun _ work => work.Keeps World.Grows :=
  (World.container_grows (Family.ofChain [] List.nodup_nil)).toComposable

section

variable {r : Resolution} (hp : r.provider.Within fun _ work => work.Keeps World.Grows)

include hp

theorem grows_nested (inner : String × Definition) (path : ArgumentPath) :
    (r.resolveNested path inner.1 inner.2).Keeps World.Grows :=
  resolveNested_mem composable_grows hp path inner.1 inner.2

theorem grows_resolve (path : ArgumentPath) (steps : List Step) (raw : RawValue) :
    (r.resolve path steps raw).Keeps World.Grows :=
  resolve_mem composable_grows (grows_learn _) hp.toGrants path steps raw (fun _ _ => hp.evaluate _)
    fun inner _ path => grows_nested hp inner path

theorem grows_resolveElements (path : ArgumentPath) (steps : List Step) (elements : List RawValue)
    (position : Nat) : (r.resolveElements path steps position elements).Keeps World.Grows :=
  resolveElements_mem composable_grows fun _ element _ path => grows_resolve hp path _ element

theorem grows_resolveEntries (path : ArgumentPath) (steps : List Step)
    (entries : List (RawValue × RawValue)) (position : Nat) :
    (r.resolveEntries path steps position entries).Keeps World.Grows :=
  resolveEntries_mem composable_grows fun _ key value _ =>
    ⟨fun path => grows_resolve hp path _ key, fun path => grows_resolve hp path _ value⟩

theorem grows_resolveArguments (arguments : List RawValue) (index : Nat) :
    (r.resolveArguments index arguments).Keeps World.Grows :=
  resolveArguments_mem composable_grows fun _ raw _ path => grows_resolve hp path _ raw

theorem grows_resolveAll (properties : List (String × RawValue)) (table : Table Value) :
    (r.resolveAll properties table).Keeps World.Grows :=
  resolveAll_mem composable_grows fun _ raw _ path => grows_resolve hp path _ raw

theorem resolveElements_eq_ok {path : ArgumentPath} {steps : List Step} {elements : List RawValue}
    {position : Nat} {world after : World} {values : List Value}
    (h : r.resolveElements path steps position elements world = (.ok values, after)) :
    ∀ element ∈ elements, r.Resolved world after element := by
  induction elements generalizing position world values with
  | nil => exact fun _ hmem => nomatch hmem
  | cons element rest ih =>
    rw [resolveElements] at h
    obtain ⟨value, between, hvalue, h⟩ := Work.bind_eq_ok h
    obtain ⟨others, last, hothers, h⟩ := Work.bind_eq_ok h
    cases h
    intro other hmem
    rcases List.mem_cons.mp hmem with rfl | hlater
    · exact ⟨_, _, _, _, _, .refl _, hvalue, (grows_resolveElements hp _ _ _ _).run hothers⟩
    · exact (ih hothers other hlater).mono ((grows_resolve hp _ _ _).run hvalue) (.refl _)

theorem resolveEntries_eq_ok {path : ArgumentPath} {steps : List Step}
    {entries : List (RawValue × RawValue)} {position : Nat} {world after : World}
    {values : List (Value × Value)}
    (h : r.resolveEntries path steps position entries world = (.ok values, after)) :
    ∀ entry ∈ entries, r.Resolved world after entry.1 ∧ r.Resolved world after entry.2 := by
  induction entries generalizing position world values with
  | nil => exact fun _ hmem => nomatch hmem
  | cons entry rest ih =>
    obtain ⟨key, value⟩ := entry
    rw [resolveEntries] at h
    obtain ⟨keyValue, keyed, hkey, h⟩ := Work.bind_eq_ok h
    obtain ⟨result, between, hvalue, h⟩ := Work.bind_eq_ok h
    obtain ⟨others, last, hothers, h⟩ := Work.bind_eq_ok h
    cases h
    have hkeyed := (grows_resolve hp _ _ _).run hkey
    have hbetween := (grows_resolve hp _ _ _).run hvalue
    have hrest := (grows_resolveEntries hp _ _ _ _).run hothers
    intro other hmem
    rcases List.mem_cons.mp hmem with rfl | hlater
    · exact ⟨⟨_, _, _, _, _, .refl _, hkey, hbetween.trans hrest⟩, ⟨_, _, _, _, _, hkeyed, hvalue, hrest⟩⟩
    · exact (ih hothers other hlater).imp (·.mono (hkeyed.trans hbetween) (.refl _))
        (·.mono (hkeyed.trans hbetween) (.refl _))

/-- If a collection is resolved, what it holds is. -/
theorem resolve_parts_eq_ok {path : ArgumentPath} {steps : List Step} {raw : RawValue}
    {world after : World} {value : Value} (h : r.resolve path steps raw world = (.ok value, after)) :
    ∀ part ∈ raw.parts, r.Resolved world after part := by
  cases raw with
  | array typeName memo elements =>
    rw [resolve] at h
    obtain ⟨type, typed, htype, h⟩ := Work.bind_eq_ok h
    obtain ⟨values, last, hvalues, h⟩ := Work.bind_eq_ok h
    cases h
    have hgrows := (elementType_mem composable_grows (grows_learn _) hp.toOffers path steps
      typeName memo).run htype
    exact fun part hpart => (resolveElements_eq_ok hp hvalues part hpart).mono hgrows (.refl _)
  | list elements | set elements =>
    rw [resolve] at h
    obtain ⟨values, last, hvalues, h⟩ := Work.bind_eq_ok h
    cases h
    exact resolveElements_eq_ok hp hvalues
  | map entries =>
    rw [resolve] at h
    obtain ⟨values, last, hvalues, h⟩ := Work.bind_eq_ok h
    cases h
    intro part hpart
    obtain ⟨entry, hentry, hpart⟩ := List.mem_flatMap.mp hpart
    obtain ⟨hkey, hvalue⟩ := resolveEntries_eq_ok hp hvalues entry hentry
    rcases List.mem_pair.mp hpart with rfl | rfl
    · exact hkey
    · exact hvalue
  | _ =>
    intro part hpart
    cases hpart

/-- **If a raw value is resolved, every leaf of it is.** -/
theorem resolve_eq_ok {path : ArgumentPath} {steps : List Step} {raw : RawValue} {world after : World}
    {value : Value} (h : r.resolve path steps raw world = (.ok value, after)) :
    ∀ leaf ∈ raw.leaves, r.Resolved world after leaf := by
  induction raw using RawValue.induction_parts generalizing path steps world after value with
  | step raw ih =>
    intro leaf hleaf
    cases hraw : raw.isLeaf with
    | true =>
      rw [RawValue.leaves_of_isLeaf hraw] at hleaf
      obtain rfl := List.mem_singleton.mp hleaf
      exact ⟨path, steps, world, value, after, .refl _, h, .refl _⟩
    | false =>
      rw [RawValue.leaves_of_collection hraw] at hleaf
      obtain ⟨part, hpart, hleaf⟩ := List.mem_flatMap.mp hleaf
      obtain ⟨path, steps, before, value, between, hbefore, hrun, hafter⟩ :=
        resolve_parts_eq_ok hp h part hpart
      exact (ih part hpart hrun leaf hleaf).mono hbefore hafter

theorem Resolved.of_mem_leaves {raw leaf : RawValue} {world after : World}
    (h : r.Resolved world after raw) (hleaf : leaf ∈ raw.leaves) : r.Resolved world after leaf := by
  obtain ⟨path, steps, before, value, between, hbefore, hrun, hafter⟩ := h
  exact (resolve_eq_ok hp hrun leaf hleaf).mono hbefore hafter

theorem resolveArguments_eq_ok {arguments : List RawValue} {index : Nat} {world after : World}
    {values : List Value} (h : r.resolveArguments index arguments world = (.ok values, after)) :
    ∀ raw ∈ arguments, r.Resolved world after raw := by
  induction arguments generalizing index world values with
  | nil => exact fun _ hmem => nomatch hmem
  | cons argument rest ih =>
    rw [resolveArguments] at h
    obtain ⟨value, between, hvalue, h⟩ := Work.bind_eq_ok h
    obtain ⟨others, last, hothers, h⟩ := Work.bind_eq_ok h
    cases h
    intro raw hmem
    rcases List.mem_cons.mp hmem with rfl | hlater
    · exact ⟨_, _, _, _, _, .refl _, hvalue, (grows_resolveArguments hp _ _).run hothers⟩
    · exact (ih hothers raw hlater).mono ((grows_resolve hp _ _ _).run hvalue) (.refl _)

theorem resolveAll_eq_ok {properties : List (String × RawValue)} {table values : Table Value}
    {world after : World} (h : r.resolveAll properties table world = (.ok values, after)) :
    ∀ raw ∈ properties.map Prod.snd, r.Resolved world after raw := by
  induction properties generalizing table world with
  | nil => exact fun _ hmem => nomatch hmem
  | cons property rest ih =>
    rw [resolveAll] at h
    obtain ⟨value, between, hvalue, hrest⟩ := Work.bind_eq_ok h
    intro raw hmem
    rcases List.mem_cons.mp hmem with rfl | hlater
    · exact ⟨_, _, _, _, _, .refl _, hvalue, (grows_resolveAll hp _ _).run hrest⟩
    · exact (ih hrest raw hlater).mono ((grows_resolve hp _ _ _).run hvalue) (.refl _)

/-- **If the inputs of a bean are had, every part of its definition is resolved.** -/
theorem inputs_eq_ok {world after : World} {inputs : BeanInputs}
    (h : r.inputs world = (.ok inputs, after)) :
    ∀ leaf ∈ r.definition.leaves, r.Resolved world after leaf := by
  intro leaf hleaf
  obtain ⟨raw, hraw, hleaf⟩ := List.mem_flatMap.mp hleaf
  obtain ⟨values, between, harguments, h⟩ := Work.bind_eq_ok h
  obtain ⟨table, last, hproperties, h⟩ := Work.bind_eq_ok h
  cases h
  rcases List.mem_append.mp hraw with hargument | hproperty
  · exact ((resolveArguments_eq_ok hp harguments raw hargument).of_mem_leaves hp hleaf).mono (.refl _)
      ((grows_resolveAll hp _ _).run hproperties)
  · exact ((resolveAll_eq_ok hp hproperties raw hproperty).of_mem_leaves hp hleaf).mono
      ((grows_resolveArguments hp _ _).run harguments) (.refl _)

end

end Resolution

/-! ## Beans that are had -/

namespace World

/-- The bean of a name was had between two worlds. -/
def Obtained (world after : World) (chain : Chain) (name : String) : Prop :=
  ∃ depth before value between, world.Grows before ∧
    Chain.bean depth chain name before = (.ok value, between) ∧ between.Grows after

theorem Obtained.mono {world before between after : World} {chain : Chain} {name : String}
    (h : before.Obtained between chain name) (hbefore : world.Grows before)
    (hafter : between.Grows after) : world.Obtained after chain name := by
  obtain ⟨depth, first, value, second, hfirst, hrun, hsecond⟩ := h
  exact ⟨depth, first, value, second, hbefore.trans hfirst, hrun, hsecond.trans hafter⟩

variable {family : Family}

/-- The beans of the names were had one after the other between two worlds. Each was noted before, for
the bean that depends on it. -/
inductive HadInOrder (member : family.Member) (dependent : String) : World → List String → World → Prop
  | nil {world after : World} (h : world.Grows after) : HadInOrder member dependent world [] after
  | cons {world before between after : World} {depth : Nat} {value : Value} {prerequisite : String}
      {rest : List String} (hbefore : world.Grows before)
      (hnoted : (before.state member.registry.index).Noted prerequisite dependent)
      (hhad : Chain.bean depth member.chain prerequisite before = (.ok value, between))
      (h : HadInOrder member dependent between rest after) :
      HadInOrder member dependent world (prerequisite :: rest) after

theorem HadInOrder.extend {member : family.Member} {dependent : String} {world between after : World}
    {names : List String} (h : HadInOrder member dependent world names between)
    (hafter : between.Grows after) : HadInOrder member dependent world names after := by
  induction h with
  | nil h => exact .nil (h.trans hafter)
  | cons hbefore hnoted hhad _ ih => exact .cons hbefore hnoted hhad (ih hafter)

theorem HadInOrder.since {member : family.Member} {dependent : String} {world between after : World}
    {names : List String} (h : HadInOrder member dependent between names after)
    (hbefore : world.Grows between) : HadInOrder member dependent world names after := by
  cases h with
  | nil h => exact .nil (hbefore.trans h)
  | cons hfirst hnoted hhad hrest => exact .cons (hbefore.trans hfirst) hnoted hhad hrest

end World

section

variable {family : Family} {depth : Nat}

theorem grows_bean {chain : Chain} (hf : family.Has chain) (depth : Nat) (name : String) :
    (Chain.bean depth chain name).Keeps World.Grows :=
  ((World.container_grows family).serve_within depth).1 chain name hf

theorem World.HadInOrder.grows {member : family.Member} {dependent : String} {world after : World}
    {names : List String} (h : HadInOrder member dependent world names after) : world.Grows after := by
  induction h with
  | nil h => exact h
  | cons hbefore _ hhad _ ih =>
    exact (hbefore.trans ((grows_bean member.chain_has _ _).run hhad)).trans ih

/-- Every bean that was had in order was had, and was noted. -/
theorem World.HadInOrder.had {member : family.Member} {dependent : String} {world after : World}
    {names : List String} (h : HadInOrder member dependent world names after) :
    ∀ name ∈ names, world.Obtained after member.chain name ∧
      (after.state member.registry.index).Noted name dependent := by
  induction h with
  | nil => exact fun _ hname => nomatch hname
  | cons hbefore hnoted hhad hrest ih =>
    have hgrows := (grows_bean member.chain_has _ _).run hhad
    intro name hname
    rcases List.mem_cons.mp hname with rfl | hlater
    · exact ⟨⟨_, _, _, _, hbefore, hhad, hrest.grows⟩, ((hgrows.trans hrest.grows).1 _).noted hnoted⟩
    · exact ⟨(ih name hlater).1.mono (hbefore.trans hgrows) (.refl _), (ih name hlater).2⟩

/-- What is done for prerequisites one after the other is done for all of them. -/
theorem hadInOrder_of_forM (depth : Nat) {member : family.Member} {dependent : String}
    {work : String → Work Unit}
    (hwork : ∀ {prerequisite : String} {world after : World},
      work prerequisite world = (.ok (), after) → ∃ before value, world.Grows before ∧
        (before.state member.registry.index).Noted prerequisite dependent ∧
        Chain.bean depth member.chain prerequisite before = (.ok value, after)) :
    ∀ {names : List String} {world after : World}, names.forM work world = (.ok ⟨⟩, after) →
      World.HadInOrder member dependent world names after
  | [], world, after, h => by
    cases h
    exact .nil (.refl _)
  | name :: rest, world, after, h => by
    obtain ⟨⟨⟩, between, hname, hrest⟩ := Work.bind_eq_ok h
    obtain ⟨before, value, hbefore, hnoted, hhad⟩ := hwork hname
    exact .cons hbefore hnoted hhad (hadInOrder_of_forM depth hwork hrest)

theorem grows_noteDependent (registry : Registry) (name dependent : String) (world : World) :
    world.Grows (world.withState registry.index
      ((world.state registry.index).noteDependent name dependent)) :=
  (World.container_grows (Family.lone registry)).noteDependent registry.lone.has name dependent world

theorem grows_noteContained (registry : Registry) (inner outer : String) (world : World) :
    world.Grows (world.withState registry.index
      ((world.state registry.index).noteContained inner outer)) :=
  (World.container_grows (Family.lone registry)).noteContained registry.lone.has inner outer world

/-- A dependency that has just been noted is noted. -/
theorem noted_noteDependent (registry : Registry) (name dependent : String) (world : World) :
    ((world.withState registry.index
      ((world.state registry.index).noteDependent name dependent)).state registry.index).Noted name
        dependent := by
  rw [World.state_withState, if_pos rfl]
  unfold State.Noted
  rw [World.canonicalName_congr (State.Framed.noteDependent _ name dependent).sources.2]
  exact State.links_noteDependent _ name dependent

/-- **The prerequisites of a bean are had in order, or having the bean fails at one of them.** -/
theorem realizePrerequisites_eq_ok {member : family.Member} {name : String} {merged : Definition}
    {world after : World}
    (h : realizePrerequisites (serve depth) member.registry member.ancestors name merged world =
      (.ok ⟨⟩, after)) : World.HadInOrder member name world merged.dependsOn after := by
  rw [realizePrerequisites_eq] at h
  refine hadInOrder_of_forM depth (fun {prerequisite world after} h => ?_) h
  unfold realizePrerequisite at h
  rw [Work.state_bind_apply] at h
  split at h
  · cases h
  · obtain ⟨⟨⟩, before, hnote, h⟩ := Work.bind_eq_ok h
    cases hnote
    obtain ⟨value, hhad⟩ := Work.discard_eq_ok (Work.explain_eq_ok h)
    exact ⟨_, value, grows_noteDependent _ _ _ world, noted_noteDependent _ _ _ world, hhad⟩

/-- The prerequisites of a nested bean are had in order, or making it fails at one of them. -/
theorem hadInOrder_of_prerequisites {member : family.Member} {given : String} {names : List String}
    {world after : World}
    (h : (names.forM fun prerequisite => do
      member.registry.noteDependent prerequisite given
      discard (Chain.bean depth member.chain prerequisite) : Work Unit) world = (.ok ⟨⟩, after)) :
    World.HadInOrder member given world names after := by
  refine hadInOrder_of_forM depth (fun {prerequisite world after} h => ?_) h
  obtain ⟨⟨⟩, before, hnote, h⟩ := Work.bind_eq_ok h
  cases hnote
  obtain ⟨had, hhad⟩ := Work.discard_eq_ok h
  exact ⟨_, had, grows_noteDependent _ _ _ world, noted_noteDependent _ _ _ world, hhad⟩

/-! ### Candidates -/

/-- Between two worlds, a container was found to have the beans of the names for a dependency of a bean,
and those meant are the ones given. -/
def World.Selected (world after : World) (dependency : Dependency) (requester : String) (part : Chain)
    (names : List String) : Prop :=
  ∃ registry ancestors before candidates between, part = registry :: ancestors ∧ world.Grows before ∧
    candidatesFor registry ancestors dependency requester before = (.ok candidates, between) ∧
    between.Grows after ∧
    (dependency.shape = .single → ∃ chosen ∈ candidates, names = [chosen]) ∧
    (dependency.shape ≠ .single → names = candidates)

theorem World.Selected.mono {world before between after : World} {dependency : Dependency}
    {requester : String} {part : Chain} {names : List String}
    (h : before.Selected between dependency requester part names) (hbefore : world.Grows before)
    (hafter : between.Grows after) : world.Selected after dependency requester part names := by
  obtain ⟨registry, ancestors, first, candidates, second, hpart, hfirst, hrun, hsecond, hmeant⟩ := h
  exact ⟨registry, ancestors, first, candidates, second, hpart, hbefore.trans hfirst, hrun,
    hsecond.trans hafter, hmeant⟩

/-- Between two worlds, no container of the chain was found to have a bean for a dependency of a bean,
and none is needed. -/
def World.Unmatched (world after : World) (dependency : Dependency) (requester : String)
    (chain : Chain) : Prop :=
  dependency.required = false ∧ ∀ registry ancestors, registry :: ancestors <:+ chain →
    ∃ before between, world.Grows before ∧
      candidatesFor registry ancestors dependency requester before = (.ok [], between) ∧
      between.Grows after

theorem World.Unmatched.mono {world before between after : World} {dependency : Dependency}
    {requester : String} {chain : Chain} (h : before.Unmatched between dependency requester chain)
    (hbefore : world.Grows before) (hafter : between.Grows after) :
    world.Unmatched after dependency requester chain := by
  refine ⟨h.1, fun registry ancestors hpart => ?_⟩
  obtain ⟨first, second, hfirst, hrun, hsecond⟩ := h.2 registry ancestors hpart
  exact ⟨first, second, hbefore.trans hfirst, hrun, hsecond.trans hafter⟩

/-- Between two worlds, a container was found to have beans of a type, of which one was meant. -/
def World.Listed (world after : World) (type : ValueType) (part : Chain) (name : String) : Prop :=
  ∃ registry ancestors before candidates between, part = registry :: ancestors ∧ world.Grows before ∧
    namesForType registry ancestors type before = (.ok candidates, between) ∧
    between.Grows after ∧ name ∈ candidates

theorem World.Listed.mono {world before between after : World} {type : ValueType} {part : Chain}
    {name : String} (h : before.Listed between type part name) (hbefore : world.Grows before)
    (hafter : between.Grows after) : world.Listed after type part name := by
  obtain ⟨registry, ancestors, first, candidates, second, hpart, hfirst, hrun, hsecond, hmem⟩ := h
  exact ⟨registry, ancestors, first, candidates, second, hpart, hbefore.trans hfirst, hrun,
    hsecond.trans hafter, hmem⟩

theorem fetchOfType_eq_ok {fetch : Fetch} {chain : Chain} {name : String} {type : ValueType}
    {value : Value} {world after : World}
    (h : fetchOfType fetch chain name type world = (.ok value, after)) :
    fetch chain name world = (.ok value, after) ∧ type.accepts value = true := by
  obtain ⟨had, between, hhad, h⟩ := Work.bind_eq_ok h
  split at h
  · next haccepts =>
    cases h
    exact ⟨hhad, haccepts⟩
  · cases h

theorem fetchNamed_eq_ok {type : ValueType} {name : String} {value : Value} {after : World} :
    ∀ {chain : Chain} {world : World}, family.Has chain →
      fetchNamed (serve depth).fetch chain type world = (.ok (name, value), after) →
      ∃ part, part <:+ chain ∧ world.Listed after type part name ∧ world.Obtained after part name
  | registry :: ancestors, world, hf, h => by
    unfold fetchNamed at h
    obtain ⟨candidates, between, hcandidates, h⟩ := Work.bind_eq_ok h
    have hlisted := ((World.container_grows family).namesForType hf type).run hcandidates
    split at h
    · obtain ⟨part, hpart, hlist, hhad⟩ := fetchNamed_eq_ok (family.ancestors_has hf) h
      exact ⟨part, hpart.trans (List.suffix_cons _ _), hlist.mono hlisted (.refl _),
        hhad.mono hlisted (.refl _)⟩
    · obtain ⟨chosen, _, hchosen, hfetch⟩ := Work.bind_eq_ok h
      obtain ⟨hmem, rfl⟩ := chooseOne_eq_ok hchosen
      obtain ⟨had, final, hhad, hend⟩ := Work.bind_eq_ok hfetch
      cases hend
      have hgrows := (grows_bean hf depth name).run hhad
      exact ⟨_, List.suffix_refl _,
        ⟨registry, ancestors, world, candidates, _, rfl, .refl _, hcandidates, hgrows, hmem⟩,
        depth, _, value, after, hlisted, hhad, .refl _⟩

theorem fetchAll_eq_ok {chain : Chain} (hf : family.Has chain) {after : World} :
    ∀ {names : List String} {had : List (String × Value)} {world : World},
      fetchAll (serve depth).fetch chain names world = (.ok (had, .ok ()), after) →
      had.map Prod.fst = names ∧ ∀ name ∈ names, world.Obtained after chain name
  | [], _, _, h => by
    cases h
    exact ⟨rfl, fun _ hname => nomatch hname⟩
  | first :: rest, had, world, h => by
    obtain ⟨value, between, others, hhad, hrest, rfl⟩ := fetchAll_cons_eq_ok_iff.mp h
    have hgrows := ((World.container_grows family).fetchAll
      ((World.container_grows family).serve_within depth).1 hf rest).run hrest
    obtain ⟨rfl, hothers⟩ := fetchAll_eq_ok hf hrest
    refine ⟨rfl, fun name hname => ?_⟩
    rcases List.mem_cons.mp hname with rfl | hlater
    · exact ⟨depth, world, value, between, .refl _, hhad, hgrows⟩
    · exact (hothers name hlater).mono ((grows_bean hf depth first).run hhad) (.refl _)

theorem inject_eq_ok {registry : Registry} {ancestors : Chain}
    (hf : family.Has (registry :: ancestors)) {dependency : Dependency} {converter : Converter}
    {candidates names : List String} {value : Value} {world after : World}
    (h : inject (serve depth).fetch registry ancestors dependency converter candidates world =
      (.ok (names, .ok value), after)) :
    (dependency.shape = .single → ∃ chosen ∈ candidates, names = [chosen]) ∧
      (dependency.shape ≠ .single → names = candidates) ∧
      ∀ name ∈ names, world.Obtained after (registry :: ancestors) name := by
  cases hshape : dependency.shape with
  | single =>
    obtain ⟨chosen, bean, rfl, hmeant, hhad, -⟩ := (inject_single_eq_ok_iff hshape).mp h
    refine ⟨fun _ => ⟨chosen, (State.meant_eq_some_iff.mp hmeant).mem, rfl⟩,
      fun hother => absurd rfl hother, fun name hname => ?_⟩
    obtain rfl := List.mem_singleton.mp hname
    exact ⟨depth, world, bean, after, .refl _, hhad, .refl _⟩
  | list =>
    obtain ⟨had, rfl, hhad, -⟩ := (inject_list_eq_ok_iff hshape).mp h
    obtain ⟨rfl, hall⟩ := fetchAll_eq_ok hf hhad
    exact ⟨nofun, fun _ => rfl, hall⟩
  | map =>
    obtain ⟨had, rfl, hhad, -⟩ := (inject_map_eq_ok_iff hshape).mp h
    obtain ⟨rfl, hall⟩ := fetchAll_eq_ok hf hhad
    exact ⟨nofun, fun _ => rfl, hall⟩

/-- **If a dependency is satisfied, the beans meant for it are had, of the nearest container that has
any; or there is none, and none is had.** -/
theorem autowire_eq_ok {dependency : Dependency} {requester : String} {converter : Converter}
    {names : List String} {value : Value} {after : World} :
    ∀ {chain : Chain} {world : World}, family.Has chain →
      autowire (serve depth).fetch chain dependency requester converter world =
        (.ok (names, .ok value), after) →
      names = [] ∧ world.Unmatched after dependency requester chain ∨
        ∃ part, part <:+ chain ∧ world.Selected after dependency requester part names ∧
          ∀ name ∈ names, world.Obtained after part name
  | [], _, _, h => by
    unfold autowire at h
    split at h
    · cases h
    · next hoptional =>
      cases h
      exact .inl ⟨rfl, by simpa using hoptional,
        fun _ _ hpart => absurd (List.suffix_nil.mp hpart) (List.cons_ne_nil _ _)⟩
  | registry :: ancestors, world, hf, h => by
    unfold autowire at h
    obtain ⟨candidates, between, hcandidates, h⟩ := Work.bind_eq_ok h
    have hlisted := ((World.container_grows family).candidatesFor hf dependency requester).run
      hcandidates
    split at h
    · next hempty =>
      rw [List.isEmpty_iff] at hempty
      subst hempty
      have hgrows := ((World.container_grows family).autowire
        ((World.container_grows family).serve_within depth).1 dependency requester converter ancestors
        (family.ancestors_has hf)).run h
      -- this container has none, which is one more that has none, and what is above is above it too
      refine (autowire_eq_ok (family.ancestors_has hf) h).imp ?_ ?_
      · rintro ⟨hnames, hoptional, hnone⟩
        refine ⟨hnames, hoptional, fun registry' ancestors' hpart => ?_⟩
        rcases List.suffix_cons_iff.mp hpart with heq | hrest
        · cases heq
          exact ⟨world, between, .refl _, hcandidates, hgrows⟩
        · obtain ⟨first, second, hfirst, hrun, hsecond⟩ := hnone registry' ancestors' hrest
          exact ⟨first, second, hlisted.trans hfirst, hrun, hsecond⟩
      rintro ⟨part, hpart, hselected, hhad⟩
      exact ⟨part, hpart.trans (List.suffix_cons _ _), hselected.mono hlisted (.refl _),
        fun name hname => (hhad name hname).mono hlisted (.refl _)⟩
    · obtain ⟨hsingle, hall, hhad⟩ := inject_eq_ok hf h
      have hgrows := ((World.container_grows family).inject
        ((World.container_grows family).serve_within depth).1 hf dependency converter candidates).run h
      exact .inr ⟨_, List.suffix_refl _,
        ⟨registry, ancestors, world, candidates, between, rfl, .refl _, hcandidates, hgrows, hsingle,
          hall⟩, fun name hname => (hhad name hname).mono hlisted (.refl _)⟩

end

/-! ## What parts of a definition ask for -/

/-- A bean that is created by a merged definition. -/
structure Creation (family : Family) where
  member : family.Member
  name : String
  owner : Owner
  definition : Definition

namespace World

variable {family : Family}

/-- The bean of which name a reference of a container itself aims at between two worlds, and in which
part of the chain. -/
inductive Aims (world after : World) (member : family.Member) (depth : Nat) (reference : Reference) :
    Chain → String → Prop
  | named {text : String} {value : Value} (hname : reference.name = some text)
      (hvalue : member.registry.settings.evaluate depth text = .ok value) :
      Aims world after member depth reference member.chain value.toText
  | typed {type : ValueType} {part : Chain} {name : String} (htype : reference.type = some type)
      (hpart : part <:+ member.chain) (hlisted : world.Listed after type part name) :
      Aims world after member depth reference part name

theorem Aims.mono {world before between after : World} {member : family.Member} {depth : Nat}
    {reference : Reference} {part : Chain} {name : String}
    (h : before.Aims between member depth reference part name) (hbefore : world.Grows before)
    (hafter : between.Grows after) : world.Aims after member depth reference part name := by
  cases h with
  | named hname hvalue => exact .named hname hvalue
  | typed htype hpart hlisted => exact .typed htype hpart (hlisted.mono hbefore hafter)

theorem Aims.part_suffix {world after : World} {member : family.Member} {depth : Nat}
    {reference : Reference} {part : Chain} {name : String}
    (h : world.Aims after member depth reference part name) : part <:+ member.chain := by
  cases h with
  | named => exact List.suffix_refl _
  | typed _ hpart => exact hpart

/-- Between two worlds, the prerequisites of a bean were had in order, and then it was created. -/
def Created (world after : World) (creation : Creation family) : Prop :=
  ∃ depth before required value between, world.Grows before ∧
    HadInOrder creation.member creation.name before creation.definition.dependsOn required ∧
    Chain.create depth creation.member.chain creation.name creation.definition required =
      (.ok value, between) ∧ between.Grows after

theorem Created.mono {world before between after : World} {creation : Creation family}
    (h : before.Created between creation) (hbefore : world.Grows before)
    (hafter : between.Grows after) : world.Created after creation := by
  obtain ⟨depth, first, required, value, second, hfirst, hrequired, hcreate, hsecond⟩ := h
  exact ⟨depth, first, required, value, second, hbefore.trans hfirst, hrequired, hcreate,
    hsecond.trans hafter⟩

theorem Created.grows {world after : World} {creation : Creation family}
    (h : world.Created after creation) : world.Grows after := by
  obtain ⟨depth, first, required, value, second, hfirst, hrequired, hcreate, hsecond⟩ := h
  have hgrows := (((container_grows family).serve_within depth).2 _ _ _ creation.member.has).run hcreate
  exact ((hfirst.trans hrequired.grows).trans hgrows).trans hsecond

end World

namespace Resolution

variable {family : Family} {member : family.Member} {depth : Nat} {r : Resolution}
  (hr : r.provider = member.registry.provider member.ancestors (serve depth) depth)

include hr

theorem evaluateName_eq_ok {text name : String} {world after : World}
    (h : r.evaluateName text world = (.ok name, after)) :
    after = world ∧ ∃ value, member.registry.settings.evaluate depth text = .ok value ∧
      name = value.toText := by
  unfold evaluateName at h
  rw [hr] at h
  obtain ⟨value, between, hvalue, h⟩ := Work.bind_eq_ok h
  cases h
  obtain ⟨heq, rfl⟩ := Work.ofStop_eq_ok hvalue
  exact ⟨rfl, value, heq, rfl⟩

/-- **What a reference of a container itself seeks is the bean that it aims at.** -/
theorem seek_eq_ok {reference : Reference} {name : String} {value : Value} {world after : World}
    (h : r.seek reference world = (.ok (name, value), after)) :
    ∃ part, world.Aims after member depth reference part name ∧ world.Obtained after part name := by
  have hof {type : ValueType} {world : World} (htype : reference.type = some type)
      (h : r.provider.namedBean type world = (.ok (name, value), after)) :
      ∃ part, world.Aims after member depth reference part name ∧ world.Obtained after part name := by
    rw [hr] at h
    obtain ⟨part, hpart, hlisted, hhad⟩ := fetchNamed_eq_ok member.chain_has h
    exact ⟨part, .typed htype hpart hlisted, hhad⟩
  obtain ⟨name?, type?, inParent⟩ := reference
  unfold seek at h
  obtain ⟨evaluated?, first, hname, h⟩ := Work.bind_eq_ok h
  -- what is looked up depends on which of the two are given
  cases name? with
  | none =>
    cases hname
    cases type? with
    | none => cases h
    | some type => exact hof rfl h
  | some text =>
    obtain ⟨evaluated, hevaluated, rfl⟩ := Work.map_eq_ok hname
    obtain ⟨rfl, content, hcontent, rfl⟩ := evaluateName_eq_ok hr hevaluated
    cases type? with
    | none =>
      obtain ⟨had, between, hhad, hend⟩ := Work.bind_eq_ok h
      cases hend
      rw [hr] at hhad
      exact ⟨_, .named rfl hcontent, depth, _, _, _, .refl _, hhad, .refl _⟩
    | some type =>
      obtain ⟨known, _, hknown, h⟩ := Work.bind_eq_ok h
      rw [hr] at hknown
      cases hknown
      split at h
      · obtain ⟨had, between, hhad, hend⟩ := Work.bind_eq_ok h
        cases hend
        rw [hr] at hhad
        exact ⟨_, .named rfl hcontent, depth, _, _, _, .refl _, (fetchOfType_eq_ok hhad).1, .refl _⟩
      · exact hof rfl h

/-- **If a reference of a container itself is resolved, the bean that it aims at is had, and noted.** -/
theorem lookUp_eq_ok {reference : Reference} {value : Value} {world after : World}
    (h : r.lookUp reference world = (.ok value, after)) :
    ∃ part name, world.Aims after member depth reference part name ∧ world.Obtained after part name ∧
      (after.state member.registry.index).Noted name r.beanName := by
  rw [lookUp_eq, hr] at h
  obtain ⟨⟨name, had⟩, between, hsought, hend⟩ := Work.bind_eq_ok h
  obtain ⟨⟨⟩, final, hnoted, hend⟩ := Work.bind_eq_ok hend
  cases hnoted
  cases hend
  have hgrows := grows_noteDependent member.registry name r.beanName between
  obtain ⟨part, haims, hhad⟩ := seek_eq_ok hr hsought
  exact ⟨part, name, haims.mono (.refl _) hgrows, hhad.mono (.refl _) hgrows, noted_noteDependent _ _ _ _⟩

theorem resolveReference_eq_ok {path : ArgumentPath} {reference : Reference} {value : Value}
    {world after : World} (hlocal : reference.inParent = false)
    (h : r.resolveReference path reference world = (.ok value, after)) :
    ∃ part name, world.Aims after member depth reference part name ∧ world.Obtained after part name ∧
      (after.state member.registry.index).Noted name r.beanName := by
  have hlookUp := Work.explain_eq_ok h
  rw [if_neg (by simp [hlocal])] at hlookUp
  obtain ⟨had, between, hhad, hend⟩ := Work.bind_eq_ok hlookUp
  cases hend
  exact lookUp_eq_ok hr hhad

omit hr in
/-- Of the names given, those are noted that are known. -/
theorem noted_of_forM {dependent : String} {after : World} :
    ∀ {names : List String} {world : World},
      (names.forM fun name => do
        if ← (Chain.lookup member.chain (serve depth)).contains name then
          member.registry.noteDependent name dependent : Work Unit) world = (.ok ⟨⟩, after) →
      world.Grows after ∧ ∀ name ∈ names, world.knows member.chain name = true →
        (after.state member.registry.index).Noted name dependent
  | [], world, h => by
    cases h
    exact ⟨.refl _, fun _ hname => nomatch hname⟩
  | first :: rest, world, h => by
    obtain ⟨⟨⟩, between, hfirst, hrest⟩ := Work.bind_eq_ok h
    obtain ⟨hgrows, hnoted⟩ := noted_of_forM hrest
    have hbetween : world.Grows between ∧ (world.knows member.chain first = true →
        (between.state member.registry.index).Noted first dependent) := by
      obtain ⟨known, _, hknown, hnote⟩ := Work.bind_eq_ok hfirst
      cases hknown
      split at hnote
      · cases hnote
        exact ⟨grows_noteDependent _ _ _ _, fun _ => noted_noteDependent _ _ _ _⟩
      · next hunknown =>
        cases hnote
        exact ⟨.refl _, fun hknown => absurd hknown hunknown⟩
    refine ⟨hbetween.1.trans hgrows, fun name hname hknown => ?_⟩
    rcases List.mem_cons.mp hname with rfl | hlater
    · exact (hgrows.1 _).noted (hbetween.2 hknown)
    · exact hnoted name hlater (hbetween.1.knows hknown)

/-- **If a dependency is satisfied, the beans meant for it are had, and those whose names are known are
noted.** -/
theorem resolveDependency_eq_ok {dependency : Dependency} {value : Value} {world after : World}
    (h : r.resolveDependency dependency world = (.ok value, after)) :
    world.Unmatched after dependency r.beanName member.chain ∨
      ∃ part names, part <:+ member.chain ∧
        world.Selected after dependency r.beanName part names ∧
        ∀ name ∈ names, world.Obtained after part name ∧
          (world.knows member.chain name = true →
            (after.state member.registry.index).Noted name r.beanName) := by
  unfold resolveDependency at h
  rw [hr] at h
  obtain ⟨⟨names, outcome⟩, between, hinjected, hrest⟩ := Work.bind_eq_ok h
  obtain ⟨had, between', houtcome, hnotes⟩ := Work.bind_eq_ok hrest
  cases outcome with
  | error failure => cases houtcome
  | ok had' =>
    cases houtcome
    obtain ⟨⟨⟩, final, hnoted, hend⟩ := Work.bind_eq_ok hnotes
    cases hend
    obtain ⟨hgrows, hknown⟩ := noted_of_forM hnoted
    have hinjection := ((World.container_grows family).autowire
      ((World.container_grows family).serve_within depth).1 dependency r.beanName r.converter _
      member.chain_has).run hinjected
    refine (autowire_eq_ok member.chain_has hinjected).imp (fun h => h.2.mono (.refl _) hgrows) ?_
    rintro ⟨part, hpart, hselected, hhad⟩
    refine ⟨part, names, hpart, hselected.mono (.refl _) hgrows, fun name hname => ?_⟩
    exact ⟨(hhad name hname).mono (.refl _) hgrows, fun h => hknown name hname (hinjection.knows h)⟩

/-- **If a nested bean that has its name is made, its prerequisites are had in order, and then it is
created.** -/
theorem buildNamed_eq_ok {given : String} {merged : Definition} {value : Value} {world after : World}
    (h : r.buildNamed given merged world = (.ok value, after)) :
    world.Created after (⟨member, given, .nothing, merged⟩ : Creation family) := by
  unfold buildNamed at h
  rw [hr] at h
  obtain ⟨⟨⟩, required, hrequired, hcreate⟩ := Work.bind_eq_ok h
  obtain ⟨made, between, hmade, hend⟩ := Work.bind_eq_ok hcreate
  refine ⟨depth, world, required, made, between, .refl _, hadInOrder_of_prerequisites hrequired, hmade,
    ?_⟩
  · cases hfactory : made.factory? with
    | none =>
      rw [hfactory] at hend
      cases hend
      exact .refl _
    | some found =>
      rw [hfactory] at hend
      exact ((World.container_grows family).product member.has _ _ _ _).run hend

theorem build_eq_ok {name : String} {merged : Definition} {value : Value} {world after : World}
    (h : r.build name merged world = (.ok value, after)) :
    ∃ given, (merged.isSingleton = false → given = name) ∧
      given ∈ (after.state member.registry.index).containedIn r.beanName ∧
      world.Created after (⟨member, given, .nothing, merged⟩ : Creation family) := by
  rw [build_eq] at h
  obtain ⟨given, first, hnamed, hrest⟩ := Work.bind_eq_ok h
  obtain ⟨⟨⟩, second, hnoted, hbuilt⟩ := Work.bind_eq_ok hrest
  have hcreated := buildNamed_eq_ok hr hbuilt
  rw [hr] at hnamed hnoted
  have hfirst : world.Grows first ∧ (merged.isSingleton = false → given = name) := by
    split at hnamed
    · next hsingleton =>
      refine ⟨((World.container_grows family).freeName name).run hnamed, fun hprototype => ?_⟩
      rw [hsingleton] at hprototype
      cases hprototype
    · cases hnamed
      exact ⟨.refl _, fun _ => rfl⟩
  cases hnoted
  have hgrows := grows_noteContained member.registry given r.beanName first
  refine ⟨given, hfirst.2, ?_, hcreated.mono (hfirst.1.trans hgrows) (.refl _)⟩
  have hcontained := State.mem_containedIn_noteContained (first.state member.registry.index) given
    r.beanName
  refine ((hcreated.grows.1 _).contained.names _).subset ?_
  rw [World.state_withState, if_pos rfl]
  exact hcontained

/-- **If a nested definition is resolved, it is merged, and the bean is noted and created by what it is
merged to.** -/
theorem resolveNested_eq_ok {path : ArgumentPath} {name : String} {definition : Definition}
    {value : Value} {world after : World}
    (h : r.resolveNested path name definition world = (.ok value, after)) :
    ∃ merged given,
      world.mergedNested member.chain name definition (some r.definition) = .ok merged ∧
      (merged.definition.isSingleton = false → given = name) ∧
      given ∈ (after.state member.registry.index).containedIn r.beanName ∧
      world.Created after (⟨member, given, .nothing, merged.definition⟩ : Creation family) := by
  unfold resolveNested at h
  obtain ⟨definition', first, hmerged, hbuild⟩ := Work.bind_eq_ok h
  have hmerged := Work.explain_eq_ok hmerged
  obtain ⟨made, between, hmade, hend⟩ := Work.bind_eq_ok (Work.explain_eq_ok hbuild)
  cases hend
  rw [hr] at hmerged
  have hgrows := ((World.container_grows family).mergedNested member.has _ _ _).run hmerged
  obtain ⟨merged, hfound, rfl, -⟩ := Work.takeMerged_eq_ok hmerged
  obtain ⟨given, hgiven, hcontained, hcreated⟩ := build_eq_ok hr hmade
  exact ⟨merged, given, hfound, hgiven, hcontained, hcreated.mono hgrows (.refl _)⟩

end Resolution

end Injector
