import Injector.Proofs.Merging.Notes
import Injector.Proofs.Requests.StateRelations

/-!
# Descents

Asking for the merged definition of a name gives what is kept of it, or else what completing its
definition gives, where its parent may be kept in turn. `World.Descent` says what this comes to in one
world, the base.

Work keeps more and more merged definitions. But whatever it keeps is what the base says, and what was
kept in the base stays kept, but for notes (`World.RestsOn`, `World.Keeping`). All work of containers
preserves this (`World.container_keeping`). So however long the work goes on, merging a name gives the
same, but for notes, as it gave in the base (`World.RestsOn.mergedIn_descends`), because a name has one
descent at most (`World.Descent.unique`).
-/

namespace Injector

/-! ## Descents -/

namespace World

/-- The name under which a chain looks for a definition. -/
def canonicalIn (world : World) : Chain → String → String
  | [], name => name
  | registry :: _, name => (world.state registry.index).canonicalName name

/--
What asking for the merged definition of a name comes to, without notes.

The number counts the definitions of the same container that come after it on the way.
-/
inductive Descent (world : World) : Chain → String → Nat → Definition → Prop
  | kept {registry : Registry} {ancestors : Chain} {name : String} {definition : Definition}
      (hkept : (world.state registry.index).merged.find? name = some definition) :
      Descent world (registry :: ancestors) name 0 definition.bare
  | root {registry : Registry} {ancestors : Chain} {name : String} {definition : Definition}
      (hunkept : (world.state registry.index).merged.find? name = none)
      (hdefined : (world.state registry.index).definitions.find? name = some definition)
      (hparent : definition.parent = none) :
      Descent world (registry :: ancestors) name 0 definition.bare
  | above {registry : Registry} {ancestors : Chain} {name : String} {further : Nat}
      {parent : Definition}
      (hunkept : (world.state registry.index).merged.find? name = none)
      (hundefined : (world.state registry.index).definitions.find? name = none)
      (h : Descent world ancestors (world.canonicalIn ancestors name) further parent) :
      Descent world (registry :: ancestors) name 0 parent
  | near {registry : Registry} {ancestors : Chain} {name parentName : String} {further : Nat}
      {definition parent : Definition}
      (hunkept : (world.state registry.index).merged.find? name = none)
      (hdefined : (world.state registry.index).definitions.find? name = some definition)
      (hparent : definition.parent = some parentName)
      (hother : (world.state registry.index).canonicalName parentName ≠ name)
      (h : Descent world (registry :: ancestors)
        ((world.state registry.index).canonicalName parentName) further parent) :
      Descent world (registry :: ancestors) name (further + 1) (parent.overlay definition.bare)
  | own {registry : Registry} {ancestors : Chain} {name parentName : String} {further : Nat}
      {definition parent : Definition}
      (hunkept : (world.state registry.index).merged.find? name = none)
      (hdefined : (world.state registry.index).definitions.find? name = some definition)
      (hparent : definition.parent = some parentName)
      (hsame : (world.state registry.index).canonicalName parentName = name)
      (h : Descent world ancestors (world.canonicalIn ancestors name) further parent) :
      Descent world (registry :: ancestors) name 0 (parent.overlay definition.bare)

/-- A name has one descent at most. -/
theorem Descent.unique {world : World} {chain : Chain} {name : String} {further further' : Nat}
    {definition definition' : Definition} (h : world.Descent chain name further definition)
    (h' : world.Descent chain name further' definition') :
    further = further' ∧ definition = definition' := by
  induction h generalizing further' definition' with
  | kept hkept =>
    cases h' with
    | kept hkept' =>
      cases hkept.symm.trans hkept'
      exact ⟨rfl, rfl⟩
    | _ => simp_all
  | root _ hdefined hparent =>
    cases h' with
    | root _ hdefined' _ =>
      cases hdefined.symm.trans hdefined'
      exact ⟨rfl, rfl⟩
    | _ => simp_all
  | above _ hundefined _ ih =>
    cases h' with
    | above _ _ h' => exact ⟨rfl, (ih h').2⟩
    | _ => simp_all
  | near _ hdefined hparent hother _ ih =>
    cases h' with
    | near _ hdefined' hparent' _ h' =>
      cases hdefined.symm.trans hdefined'
      cases hparent.symm.trans hparent'
      obtain ⟨rfl, rfl⟩ := ih h'
      exact ⟨rfl, rfl⟩
    | _ => simp_all
  | own _ hdefined hparent hsame _ ih =>
    cases h' with
    | own _ hdefined' _ _ h' =>
      cases hdefined.symm.trans hdefined'
      obtain ⟨rfl, rfl⟩ := ih h'
      exact ⟨rfl, rfl⟩
    | _ => simp_all

/-! ### Names in worlds with the same aliases -/

theorem canonicalName_congr {state state' : State} (h : state'.aliases = state.aliases)
    (name : String) : state'.canonicalName name = state.canonicalName name := by
  unfold State.canonicalName
  rw [h]

theorem canonicalIn_congr {world after : World} (h : Statewise State.SameSources world after)
    (chain : Chain) (name : String) : after.canonicalIn chain name = world.canonicalIn chain name := by
  cases chain with
  | nil => rfl
  | cons registry ancestors => exact canonicalName_congr (h _).2 name

end World

/-! ## Merging, taken apart -/

namespace State

variable {state : State} {index : Nat} {name : String} {definition : Definition}
  {containing : Option Definition} {near above : String → Except Failure Merged} {merged : Merged}

/-- Entering a definition leaves fewer to be entered. -/
theorem length_erase_lt {unentered : List String} (h : name ∈ unentered) :
    (unentered.erase name).length < unentered.length := by
  rw [List.length_erase_of_mem h]
  exact Nat.sub_one_lt_of_lt (List.length_pos_of_mem h)

/-- A definition that is completed has no parent, or is laid over its merged parent. -/
theorem complete_eq_ok (h : state.complete name definition containing near above = .ok merged) :
    (definition.parent = none ∧ merged = { definition := definition.within containing }) ∨
      ∃ parentName parent, definition.parent = some parentName ∧
        (if state.canonicalName parentName = name then above (state.canonicalName parentName)
          else near (state.canonicalName parentName)) = .ok parent ∧
        merged =
          { parent with definition := (parent.definition.overlay definition).within containing } := by
  unfold complete at h
  cases hparent : definition.parent with
  | none =>
    rw [hparent] at h
    exact Or.inl ⟨rfl, (Except.ok.inj h).symm⟩
  | some parentName =>
    rw [hparent] at h
    dsimp only at h
    split at h
    · cases h
    · next parent hfound =>
      exact Or.inr ⟨parentName, parent, rfl, hfound, (Except.ok.inj h).symm⟩

/-- A definition that is refused is refused for its parent, and by its own name. -/
theorem complete_eq_error {failure : Failure}
    (h : state.complete name definition containing near above = .error failure) :
    ∃ parentName cause, definition.parent = some parentName ∧
      failure =
        .invalidDefinition definition.resource (some name) (.unresolvedParent parentName cause) := by
  unfold complete at h
  cases hname : definition.parent with
  | none =>
    rw [hname] at h
    cases h
  | some parentName =>
    rw [hname] at h
    dsimp only at h
    split at h
    · next cause _ => exact ⟨parentName, cause, rfl, (Except.error.inj h).symm⟩
    · cases h

/-- A definition without a parent is complete. -/
theorem complete_of_root (hparent : definition.parent = none) :
    state.complete name definition containing near above =
      .ok { definition := definition.within containing } := by
  rw [complete, hparent]

/-- A definition is completed by its parent if that is merged. -/
theorem complete_of_parent (hparent : definition.parent = some parentName)
    (hfound : (if state.canonicalName parentName = name then above (state.canonicalName parentName)
      else near (state.canonicalName parentName)) = .ok parent) :
    state.complete name definition containing near above =
      .ok { parent with definition := (parent.definition.overlay definition).within containing } := by
  unfold complete
  rw [hparent]
  dsimp only
  rw [hfound]

/-- A definition that is still to be entered is merged if it is completed. -/
theorem exists_mergedFrom_of_complete {unentered : List String}
    (hkept : state.merged.find? name = none)
    (hdefined : state.definitions.find? name = some definition) (hentered : name ∈ unentered)
    (hcompleted : state.complete name definition none
      (state.mergedFrom index above (unentered.erase name)) above = .ok merged) :
    ∃ merged, state.mergedFrom index above unentered name = .ok merged := by
  rw [mergedFrom, hkept]
  dsimp only
  rw [hdefined]
  dsimp only
  rw [dif_pos hentered, hcompleted]
  exact ⟨_, rfl⟩

/-- A merged definition is kept, comes from the ancestors, or is a definition that is completed. -/
theorem mergedFrom_eq_ok {unentered : List String}
    (h : state.mergedFrom index above unentered name = .ok merged) :
    (∃ kept, state.merged.find? name = some kept ∧ merged = { definition := kept }) ∨
      state.merged.find? name = none ∧
        (state.definitions.find? name = none ∧ above name = .ok merged ∨
          ∃ definition completed, state.definitions.find? name = some definition ∧
            name ∈ unentered ∧
            state.complete name definition none (state.mergedFrom index above (unentered.erase name))
              above = .ok completed ∧
            merged =
              { completed with
                additions := completed.additions ++ [(index, name, completed.definition)] }) := by
  rw [mergedFrom] at h
  cases hkept : state.merged.find? name with
  | some kept =>
    rw [hkept] at h
    exact Or.inl ⟨kept, rfl, (Except.ok.inj h).symm⟩
  | none =>
    rw [hkept] at h
    dsimp only at h
    refine Or.inr ⟨rfl, ?_⟩
    cases hdefined : state.definitions.find? name with
    | none =>
      rw [hdefined] at h
      exact Or.inl ⟨rfl, h⟩
    | some definition =>
      rw [hdefined] at h
      dsimp only at h
      split at h
      · next hmem =>
        split at h
        · cases h
        · next completed hcompleted =>
          exact Or.inr ⟨definition, completed, rfl, hmem, hcompleted, (Except.ok.inj h).symm⟩
      · cases h

end State

/-! ## What is kept -/

namespace World

variable {family : Family} {base world : World}

/-- A container of the family defines the name, and the definition is what the base says. -/
def Derived (family : Family) (base : World) (index : Nat) (name : String)
    (definition : Definition) : Prop :=
  ∃ member : family.Member, member.registry.index = index ∧
    (base.state index).definitions.contains name = true ∧
    ∃ further, base.Descent member.chain name further definition.bare

/-- Definitions and aliases are those of the base, and what is kept is what the base says. -/
structure RestsOn (family : Family) (base world : World) : Prop where
  sources : Statewise State.SameSources base world
  /-- What was kept in the base is kept, but for notes. -/
  kept : ∀ index name definition, (base.state index).merged.find? name = some definition →
    ∃ now, (world.state index).merged.find? name = some now ∧ now.bare = definition.bare
  descends : ∀ (member : family.Member) (name : String) (definition : Definition),
    (world.state member.registry.index).merged.find? name = some definition →
      ∃ further, base.Descent member.chain name further definition.bare

/-- Moreover, what is kept is defined if it was not kept in the base. -/
structure Keeping (family : Family) (base world : World) : Prop extends
    RestsOn family base world where
  defined : ∀ index name, (world.state index).merged.contains name = true →
    (base.state index).merged.contains name = true ∨
      (base.state index).definitions.contains name = true

theorem Keeping.refl (family : Family) (base : World) : Keeping family base base where
  sources := State.stateRelation_sameSources.statewise_refl base
  kept _ _ definition hkept := ⟨definition, hkept, rfl⟩
  descends _ _ _ hkept := ⟨0, .kept hkept⟩
  defined _ _ hkept := Or.inl hkept

/-- What is not kept was not kept in the base. -/
theorem RestsOn.unkept (h : RestsOn family base world) {index : Nat} {name : String}
    (hunkept : (world.state index).merged.find? name = none) :
    (base.state index).merged.find? name = none := by
  rw [Option.eq_none_iff_forall_ne_some]
  intro definition hkept
  obtain ⟨now, hnow, -⟩ := h.kept index name definition hkept
  rw [hunkept] at hnow
  cases hnow

/-! ### What merging gives -/

/-- A merged definition is what the base says of the name, and so is all that was merged for it. -/
structure Descends (family : Family) (base : World) (chain : Chain) (name : String)
    (merged : Merged) : Prop where
  descent : ∃ further, base.Descent chain name further merged.definition.bare
  derived : ∀ index name definition, (index, name, definition) ∈ merged.additions →
    Derived family base index name definition

section

variable {registry : Registry} {ancestors : Chain} {above : String → Except Failure Merged}
  (hf : family.Has (registry :: ancestors)) (hrests : RestsOn family base world)
  (habove : ∀ name merged, above name = .ok merged →
    Descends family base ancestors (base.canonicalIn ancestors name) merged)

include hf hrests habove

/-- In one container, merging gives what the base says if merging in its ancestors does. -/
theorem mergedFrom_descends (unentered : List String) (name : String) (merged : Merged)
    (h : (world.state registry.index).mergedFrom registry.index above unentered name = .ok merged) :
    Descends family base (registry :: ancestors) name merged := by
  obtain ⟨hdefinitions, haliases⟩ := hrests.sources registry.index
  rcases State.mergedFrom_eq_ok h with ⟨kept, hfound, rfl⟩ | ⟨hunkept, ⟨hundefined, hfound⟩ |
    ⟨definition, completed, hdefined, hmem, hcompleted, rfl⟩⟩
  · exact ⟨hrests.descends ⟨registry, ancestors, hf⟩ name kept hfound, fun _ _ _ hmem => nomatch hmem⟩
  · rw [hdefinitions] at hundefined
    obtain ⟨⟨further, hdescent⟩, hderived⟩ := habove name merged hfound
    exact ⟨⟨0, .above (hrests.unkept hunkept) hundefined hdescent⟩, hderived⟩
  · rw [hdefinitions] at hdefined
    have hunkept := hrests.unkept hunkept
    have hdescends : Descends family base (registry :: ancestors) name completed := by
      rcases State.complete_eq_ok hcompleted with ⟨hparent, rfl⟩ |
        ⟨parentName, parent, hparent, hfound, rfl⟩
      · exact ⟨⟨0, .root hunkept hdefined hparent⟩, fun _ _ _ hmem => nomatch hmem⟩
      · rw [canonicalName_congr haliases] at hfound
        have hbare : ((parent.definition.overlay definition).within none).bare =
            parent.definition.bare.overlay definition.bare := DefinitionOf.bare_overlay _ _
        split at hfound
        · next hsame =>
          -- a definition that names itself as its parent means that of the ancestors
          obtain ⟨⟨further, hdescent⟩, hderived⟩ := habove _ parent hfound
          rw [hsame] at hdescent
          refine ⟨⟨0, ?_⟩, hderived⟩
          rw [hbare]
          exact .own hunkept hdefined hparent hsame hdescent
        · next hother =>
          obtain ⟨⟨further, hdescent⟩, hderived⟩ := mergedFrom_descends _ _ parent hfound
          refine ⟨⟨further + 1, ?_⟩, hderived⟩
          rw [hbare]
          exact .near hunkept hdefined hparent hother hdescent
    refine ⟨hdescends.descent, fun index' name' definition' hmem => ?_⟩
    rcases List.mem_append.mp hmem with hmem | hmem
    · exact hdescends.derived index' name' definition' hmem
    · cases List.mem_singleton.mp hmem
      exact ⟨⟨registry, ancestors, hf⟩, rfl, Table.contains_of_find? hdefined, hdescends.descent⟩
termination_by unentered.length
decreasing_by exact State.length_erase_lt hmem

end

/-- **Merging gives what the base says.** -/
theorem RestsOn.mergedIn_descends (h : RestsOn family base world) :
    ∀ chain, family.Has chain → ∀ name merged, world.mergedIn chain name = .ok merged →
      Descends family base chain (base.canonicalIn chain name) merged
  | [], _, name, merged, hok => by cases hok
  | registry :: ancestors, hf, name, merged, hok => by
    rw [← canonicalIn_congr h.sources]
    exact mergedFrom_descends hf h (h.mergedIn_descends ancestors (family.ancestors_has hf)) _ _
      merged hok

/-! ### What has a descent is merged -/

section

variable {registry : Registry} {ancestors : Chain} {above : String → Except Failure Merged}
  (hsources : Statewise State.SameSources base world)
  (hunkept : ∀ index name, (world.state index).merged.find? name = none →
    (base.state index).merged.find? name = none)

include hsources hunkept

/--
The names that are still to be entered have to contain all that the descent may come to.

Those are names with shorter descents, so that entering one takes away none that is needed later.
-/
theorem mergedFrom_of_descent (habove : ∀ name further definition,
      base.Descent ancestors (base.canonicalIn ancestors name) further definition →
        ∃ merged, above name = .ok merged) (further : Nat) :
    ∀ (name : String) (definition : Definition) (unentered : List String),
      base.Descent (registry :: ancestors) name further definition →
      (∀ other further' definition', further' ≤ further →
        base.Descent (registry :: ancestors) other further' definition' →
        (base.state registry.index).definitions.contains other = true → other ∈ unentered) →
      ∃ merged,
        (world.state registry.index).mergedFrom registry.index above unentered name = .ok merged := by
  obtain ⟨hdefinitions, haliases⟩ := hsources registry.index
  induction further using Nat.strongRecOn with
  | _ further ih =>
    intro name definition unentered hdescent hcovers
    cases hkept : (world.state registry.index).merged.find? name with
    | some kept =>
      rw [State.mergedFrom, hkept]
      exact ⟨_, rfl⟩
    | none =>
      have hentered {own : Definition}
          (hdefined : (base.state registry.index).definitions.find? name = some own) :
          name ∈ unentered :=
        hcovers name further definition (Nat.le_refl _) hdescent (Table.contains_of_find? hdefined)
      have hself := hdescent
      cases hdescent with
      | kept hkept' =>
        rw [hunkept _ _ hkept] at hkept'
        cases hkept'
      | root _ hdefined hparent =>
        exact State.exists_mergedFrom_of_complete hkept (hdefinitions ▸ hdefined) (hentered hdefined)
          (State.complete_of_root hparent)
      | above _ hundefined hdescent =>
        rw [State.mergedFrom, hkept, hdefinitions, hundefined]
        exact habove name _ _ hdescent
      | own _ hdefined hparent hsame hdescent =>
        obtain ⟨parent, hfound⟩ := habove name _ _ hdescent
        rw [← canonicalName_congr haliases] at hsame
        rw [← hsame] at hfound
        exact State.exists_mergedFrom_of_complete hkept (hdefinitions ▸ hdefined) (hentered hdefined)
          (State.complete_of_parent hparent ((if_pos hsame).trans hfound))
      | @near _ _ _ _ shorter _ _ _ hdefined hparent hother hdescent =>
        have hrest : ∀ other further' definition', further' ≤ shorter →
            base.Descent (registry :: ancestors) other further' definition' →
            (base.state registry.index).definitions.contains other = true →
              other ∈ unentered.erase name := by
          intro other further' definition' hle hdescent' hdefined'
          have hmem : other ∈ unentered :=
            hcovers other further' definition' (Nat.le_succ_of_le hle) hdescent' hdefined'
          -- it is not the name itself, whose descent is longer
          refine (List.mem_erase_of_ne ?_).mpr hmem
          rintro rfl
          have hlength := (hdescent'.unique hself).1
          omega
        obtain ⟨parent, hfound⟩ := ih _ (Nat.lt_succ_self _) _ _ (unentered.erase name) hdescent hrest
        rw [← canonicalName_congr haliases] at hother hfound
        exact State.exists_mergedFrom_of_complete hkept (hdefinitions ▸ hdefined) (hentered hdefined)
          (State.complete_of_parent hparent ((if_neg hother).trans hfound))

/-- A name that has a descent is merged if all definitions are still to be entered. -/
theorem mergedFrom_keys_of_descent (habove : ∀ name further definition,
      base.Descent ancestors (base.canonicalIn ancestors name) further definition →
        ∃ merged, above name = .ok merged) {name : String} {further : Nat} {definition : Definition}
    (h : base.Descent (registry :: ancestors) name further definition) :
    ∃ merged, (world.state registry.index).mergedFrom registry.index above
      (world.state registry.index).definitions.keys name = .ok merged := by
  refine mergedFrom_of_descent hsources hunkept habove further name definition _ h ?_
  intro other _ _ _ _ hdefined
  rw [← (hsources _).1] at hdefined
  exact (Table.contains_iff_mem_keys _ _).mp hdefined

omit registry ancestors above in
/-- **A name that has a descent is merged.** -/
theorem mergedIn_of_descent :
    ∀ (chain : Chain) (name : String) (further : Nat) (definition : Definition),
      base.Descent chain (base.canonicalIn chain name) further definition →
        ∃ merged, world.mergedIn chain name = .ok merged
  | [], name, further, definition, h => by cases h
  | registry :: ancestors, name, further, definition, h => by
    rw [← canonicalIn_congr hsources] at h
    exact mergedFrom_keys_of_descent hsources hunkept (mergedIn_of_descent ancestors) h

end

/-- The merged definition without notes, if there is one. -/
def bareOf (found : Except Failure Merged) : Option Definition :=
  found.toOption.map fun merged => merged.definition.bare

theorem exists_of_bareOf {found : Except Failure Merged} {definition : Definition}
    (h : bareOf found = some definition) :
    ∃ merged, found = .ok merged ∧ merged.definition.bare = definition := by
  cases found with
  | error failure => cases h
  | ok merged => exact ⟨merged, rfl, Option.some.inj h⟩

/-- What is found in two ways is the same, but for notes, if it is found in both ways or in neither, and
is what the base says. -/
theorem bareOf_congr {found found' : Except Failure Merged} {chain : Chain} {name : String}
    (hfound : ∀ merged, found = .ok merged → Descends family base chain name merged)
    (hfound' : ∀ merged, found' = .ok merged → Descends family base chain name merged)
    (hdescent : ∀ further definition, base.Descent chain name further definition →
      (∃ merged, found = .ok merged) ∧ ∃ merged, found' = .ok merged) :
    bareOf found = bareOf found' := by
  cases found with
  | ok merged =>
    obtain ⟨further, hdescends⟩ := (hfound merged rfl).descent
    obtain ⟨-, merged', rfl⟩ := hdescent further _ hdescends
    obtain ⟨_, hdescends'⟩ := (hfound' merged' rfl).descent
    exact congrArg some (hdescends.unique hdescends').2
  | error failure =>
    cases found' with
    | error failure' => rfl
    | ok merged =>
      obtain ⟨further, hdescends⟩ := (hfound' merged rfl).descent
      obtain ⟨⟨_, hnone⟩, -⟩ := hdescent further _ hdescends
      cases hnone

/-- However long work goes on, merging in one container gives the same, but for notes, as in the base. -/
theorem RestsOn.bareOf_mergedFrom (h : RestsOn family base world) {registry : Registry}
    {ancestors : Chain} (hf : family.Has (registry :: ancestors)) (name : String) :
    bareOf ((world.state registry.index).mergedFrom registry.index (world.mergedIn ancestors)
        (world.state registry.index).definitions.keys name) =
      bareOf ((base.state registry.index).mergedFrom registry.index (base.mergedIn ancestors)
        (base.state registry.index).definitions.keys name) := by
  have hbase : RestsOn family base base := (Keeping.refl family base).toRestsOn
  have habove := family.ancestors_has hf
  refine bareOf_congr (mergedFrom_descends hf h (h.mergedIn_descends ancestors habove) _ name)
    (mergedFrom_descends hf hbase (hbase.mergedIn_descends ancestors habove) _ name)
    fun further definition hdescent => ⟨?_, ?_⟩
  · exact mergedFrom_keys_of_descent h.sources (fun _ _ => h.unkept)
      (mergedIn_of_descent h.sources (fun _ _ => h.unkept) ancestors) hdescent
  · exact mergedFrom_keys_of_descent hbase.sources (fun _ _ => hbase.unkept)
      (mergedIn_of_descent hbase.sources (fun _ _ => hbase.unkept) ancestors) hdescent

/-- **However long work goes on, merging a name gives the same, but for notes, as in the base.** -/
theorem RestsOn.bareOf_mergedIn (h : RestsOn family base world) :
    ∀ {chain : Chain}, family.Has chain → ∀ name : String,
      bareOf (world.mergedIn chain name) = bareOf (base.mergedIn chain name)
  | [], _, _ => rfl
  | registry :: ancestors, hf, name => by
    rw [mergedIn, mergedIn, canonicalName_congr (h.sources registry.index).2]
    exact h.bareOf_mergedFrom hf _

/-- What is kept of a name is what merging gives in the base. -/
theorem RestsOn.bareOf_of_kept (h : RestsOn family base world) {member : family.Member} {name : String}
    {definition : Definition} (hcanonical : base.canonicalIn member.chain name = name)
    (hkept : (world.state member.registry.index).merged.find? name = some definition) :
    bareOf (base.mergedIn member.chain name) = some definition.bare := by
  have hbase : RestsOn family base base := (Keeping.refl family base).toRestsOn
  obtain ⟨further, hdescent⟩ := h.descends member name definition hkept
  rw [← hcanonical] at hdescent
  obtain ⟨merged, hmerged⟩ := mergedIn_of_descent hbase.sources (fun _ _ => hbase.unkept) member.chain name
    further _ hdescent
  obtain ⟨_, hdescent'⟩ := (hbase.mergedIn_descends _ member.chain_has name merged hmerged).descent
  rw [hmerged]
  exact congrArg some (hdescent.unique hdescent').2.symm

/-! ### Nested definitions -/

/-- A definition is completed in the same way, but for notes, if its parent is merged in the same way. -/
theorem bareOf_complete {state state' : State} (haliases : state'.aliases = state.aliases)
    {name : String} {definition : Definition} {containing : Option Definition}
    {near near' above above' : String → Except Failure Merged}
    (hnear : ∀ parentName, bareOf (near' parentName) = bareOf (near parentName))
    (habove : ∀ parentName, bareOf (above' parentName) = bareOf (above parentName)) :
    bareOf (state'.complete name definition containing near' above') =
      bareOf (state.complete name definition containing near above) := by
  unfold State.complete
  cases definition.parent with
  | none => rfl
  | some parentName =>
    dsimp only
    rw [canonicalName_congr haliases]
    have hparent : bareOf (if state.canonicalName parentName = name then
          above' (state.canonicalName parentName) else near' (state.canonicalName parentName)) =
        bareOf (if state.canonicalName parentName = name then
          above (state.canonicalName parentName) else near (state.canonicalName parentName)) := by
      split
      · exact habove _
      · exact hnear _
    revert hparent
    generalize (if state.canonicalName parentName = name then above' (state.canonicalName parentName)
      else near' (state.canonicalName parentName)) = found'
    generalize (if state.canonicalName parentName = name then above (state.canonicalName parentName)
      else near (state.canonicalName parentName)) = found
    intro hparent
    cases found with
    | error failure =>
      cases found' with
      | error failure' => rfl
      | ok merged => cases hparent
    | ok merged =>
      cases found' with
      | error failure' => cases hparent
      | ok merged' =>
        have hbare : merged'.definition.bare = merged.definition.bare := Option.some.inj hparent
        refine congrArg some ?_
        dsimp only
        rw [DefinitionOf.bare_within, DefinitionOf.bare_within, DefinitionOf.bare_overlay,
          DefinitionOf.bare_overlay, hbare]

/-- **So does completing a nested definition.** -/
theorem RestsOn.bareOf_mergedNested (h : RestsOn family base world) {chain : Chain}
    (hf : family.Has chain) (name : String) (definition : Definition)
    (containing : Option Definition) :
    bareOf (world.mergedNested chain name definition containing) =
      bareOf (base.mergedNested chain name definition containing) := by
  cases chain with
  | nil => rfl
  | cons registry ancestors =>
    exact bareOf_complete (h.sources registry.index).2 (h.bareOf_mergedFrom hf)
      (h.bareOf_mergedIn (family.ancestors_has hf))

/-- A nested definition is completed by what the base says of its parent, if it has one. -/
theorem RestsOn.mergedNested_eq_ok (h : RestsOn family base world) {registry : Registry}
    {ancestors : Chain} (hf : family.Has (registry :: ancestors)) {name : String}
    {definition : Definition} {containing : Option Definition} {merged : Merged}
    (hok : world.mergedNested (registry :: ancestors) name definition containing = .ok merged) :
    (definition.parent = none ∧ merged = { definition := definition.within containing }) ∨
      ∃ parentName parent, definition.parent = some parentName ∧
        (if (base.state registry.index).canonicalName parentName = name then
          Descends family base ancestors (base.canonicalIn ancestors name) parent
        else Descends family base (registry :: ancestors)
          ((base.state registry.index).canonicalName parentName) parent) ∧
        merged =
          { parent with definition := (parent.definition.overlay definition).within containing } := by
  have habove := h.mergedIn_descends ancestors (family.ancestors_has hf)
  refine (State.complete_eq_ok hok).imp_right ?_
  rintro ⟨parentName, parent, hparent, hfound, rfl⟩
  refine ⟨parentName, parent, hparent, ?_, rfl⟩
  rw [canonicalName_congr (h.sources registry.index).2] at hfound
  split at hfound
  · next hsame =>
    rw [if_pos hsame, ← hsame]
    exact habove _ parent hfound
  · next hother =>
    rw [if_neg hother]
    exact mergedFrom_descends hf h habove _ _ parent hfound

/-- What is merged for a nested definition on the way is what the base says. -/
theorem RestsOn.mergedNested_derived (h : RestsOn family base world) {registry : Registry}
    {ancestors : Chain} (hf : family.Has (registry :: ancestors)) {name : String}
    {definition : Definition} {containing : Option Definition} {merged : Merged}
    (hok : world.mergedNested (registry :: ancestors) name definition containing = .ok merged) :
    ∀ index name definition, (index, name, definition) ∈ merged.additions →
      Derived family base index name definition := by
  rcases h.mergedNested_eq_ok hf hok with ⟨-, rfl⟩ | ⟨parentName, parent, -, hdescends, rfl⟩
  · exact fun _ _ _ hmem => nomatch hmem
  · split at hdescends
    · exact hdescends.derived
    · exact hdescends.derived

/-! ### What work keeps -/

/-- A world keeps on if definitions and aliases are the same, what was kept stays kept but for notes,
and what is kept then was kept before, but for notes, or is what the base says. -/
theorem Keeping.next {after : World} (h : Keeping family base world)
    (hsources : Statewise State.SameSources world after)
    (hkept : ∀ index name definition, (world.state index).merged.find? name = some definition →
      ∃ now, (after.state index).merged.find? name = some now ∧ now.bare = definition.bare)
    (hnew : ∀ index name definition, (after.state index).merged.find? name = some definition →
      Derived family base index name definition ∨
        ∃ before, (world.state index).merged.find? name = some before ∧
          before.bare = definition.bare) :
    Keeping family base after where
  sources := State.stateRelation_sameSources.statewise_trans _ _ _ h.sources hsources
  kept index name definition hbase := by
    obtain ⟨before, hbefore, hbare⟩ := h.kept index name definition hbase
    obtain ⟨now, hnow, hsame⟩ := hkept index name before hbefore
    exact ⟨now, hnow, hsame.trans hbare⟩
  descends member name definition hfound := by
    rcases hnew _ name definition hfound with ⟨member', hindex, -, hdescent⟩ | ⟨before, hbefore, hbare⟩
    · obtain ⟨hregistry, hancestors⟩ := family.index_unique member'.has member.has hindex
      unfold Family.Member.chain at hdescent ⊢
      rw [hregistry, hancestors] at hdescent
      exact hdescent
    · rw [← hbare]
      exact h.descends member name before hbefore
  defined index name hfound := by
    obtain ⟨definition, hfound⟩ := (Table.contains_iff_find? _ _).mp hfound
    rcases hnew index name definition hfound with ⟨-, -, hdefined, -⟩ | ⟨before, hbefore, -⟩
    · exact Or.inr hdefined
    · exact h.defined index name (Table.contains_of_find? hbefore)

/-- Nothing changes about that if states are changed in other respects. -/
theorem Keeping.of_sameMerged {after : World} (h : Keeping family base world)
    (hsources : Statewise State.SameSources world after)
    (hmerged : ∀ index, (after.state index).merged = (world.state index).merged) :
    Keeping family base after := by
  refine h.next hsources (fun index name definition hkept => ⟨definition, ?_, rfl⟩)
    fun index name definition hkept => Or.inr ⟨definition, ?_, rfl⟩
  · rw [hmerged]
    exact hkept
  · rw [← hmerged]
    exact hkept

theorem Keeping.of_states {after : World} (h : Keeping family base world)
    (hstates : after.states = world.states) : Keeping family base after := by
  have hstate : ∀ index, after.state index = world.state index := by
    intro index
    unfold state
    rw [hstates]
  refine h.of_sameMerged (fun index => ?_) fun index => ?_
  · rw [hstate]
    exact ⟨rfl, rfl⟩
  · rw [hstate]

theorem Keeping.withState {index : Nat} {after : State} (h : Keeping family base world)
    (hsources : (world.state index).SameSources after)
    (hmerged : after.merged = (world.state index).merged) :
    Keeping family base (world.withState index after) := by
  refine h.of_sameMerged (State.stateRelation_sameSources.statewise_withState hsources)
    fun other => ?_
  rw [state_withState]
  split
  · next he =>
    rw [he]
    exact hmerged
  · rfl

/-- What is kept after something was learnt about one of the merged definitions that are kept. -/
theorem find?_learn (world : World) (index : Nat) (name : String) (steps : List Step) (lesson : Lesson)
    (other : Nat) (wanted : String) :
    ((world.learn (.merged index name) steps lesson).state other).merged.find? wanted =
      if other = index ∧ wanted = name then
        ((world.state other).merged.find? wanted).map (DefinitionOf.learn lesson steps)
      else (world.state other).merged.find? wanted := by
  unfold World.learn
  dsimp only
  rw [state_withState]
  by_cases he : other = index
  · subst he
    rw [if_pos rfl, Table.find?_adjust]
    by_cases hw : wanted = name
    · rw [if_pos hw, if_pos ⟨rfl, hw⟩, hw]
    · rw [if_neg hw, if_neg (fun hboth => hw hboth.2)]
  · rw [if_neg he, if_neg (fun hboth => he hboth.1)]

/-- What is kept after one merged definition was, if none was kept for its name. -/
theorem find?_keep (world : World) (index : Nat) (name : String) (definition : Definition) (other : Nat)
    (wanted : String) :
    ((world.withState index { world.state index with
      merged := (world.state index).merged.insertNew name definition }).state other).merged.find? wanted =
      if other = index ∧ wanted = name then
        some (((world.state other).merged.find? wanted).getD definition)
      else (world.state other).merged.find? wanted := by
  rw [state_withState]
  by_cases he : other = index
  · subst he
    rw [if_pos rfl, Table.find?_insertNew]
    by_cases hw : wanted = name
    · rw [if_pos hw, if_pos ⟨rfl, hw⟩, hw]
    · rw [if_neg hw, if_neg (fun hboth => hw hboth.2)]
  · rw [if_neg he, if_neg (fun hboth => he hboth.1)]

/-- Learning something about what is kept leaves a note and nothing else. -/
theorem Keeping.learn (h : Keeping family base world) (owner : Owner) (steps : List Step)
    (lesson : Lesson) : Keeping family base (world.learn owner steps lesson) := by
  have hbare := DefinitionOf.bare_learn lesson steps
  cases owner with
  | nothing => exact h
  | bench => exact h.of_states rfl
  | merged index name =>
    refine h.next (State.stateRelation_sameSources.statewise_learn _ _ _ _) ?_ ?_
    · intro other wanted definition hkept
      rw [find?_learn, hkept]
      split
      · exact ⟨_, rfl, hbare definition⟩
      · exact ⟨definition, rfl, rfl⟩
    · intro other wanted definition hfound
      rw [find?_learn] at hfound
      split at hfound
      · obtain ⟨before, hbefore, rfl⟩ := Option.map_eq_some_iff.mp hfound
        exact Or.inr ⟨before, hbefore, (hbare before).symm⟩
      · exact Or.inr ⟨definition, hfound, rfl⟩

/-- What the base says may be kept. -/
theorem Keeping.keepMerged (additions : List (Nat × String × Definition)) :
    ∀ {world : World}, Keeping family base world →
      (∀ index name definition, (index, name, definition) ∈ additions →
        Derived family base index name definition) →
      Keeping family base (world.keepMerged additions) := by
  induction additions with
  | nil => exact fun h _ => h
  | cons addition rest ih =>
    intro world h hderived
    obtain ⟨index, name, definition⟩ := addition
    refine ih (h.next (State.stateRelation_sameSources.statewise_withState ⟨rfl, rfl⟩) ?_ ?_)
      fun other wanted added hmem => hderived other wanted added (List.mem_cons_of_mem _ hmem)
    · intro other wanted before hkept
      rw [find?_keep, hkept]
      exact ⟨before, ite_self _, rfl⟩
    · intro other wanted now hfound
      rw [find?_keep] at hfound
      split at hfound
      · next hboth =>
        obtain ⟨rfl, rfl⟩ := hboth
        cases hbefore : (world.state other).merged.find? wanted with
        | some before =>
          -- what is kept already is not replaced
          rw [hbefore] at hfound
          cases hfound
          exact Or.inr ⟨_, rfl, rfl⟩
        | none =>
          rw [hbefore] at hfound
          cases hfound
          exact Or.inl (hderived _ _ _ List.mem_cons_self)
      · exact Or.inr ⟨now, hfound, rfl⟩

/-- **All work of containers keeps to what the base says.** -/
theorem container_keeping (family : Family) (base : World) :
    Container family fun _ work =>
      work.Keeps fun world after => Keeping family base world → Keeping family base after where
  toCompositional := Work.compositional_preserves _
  served _ _ _ _ h := h.of_states rfl
  named _ _ _ _ h := h.of_states rfl
  learn owner steps lesson world h := h.learn owner steps lesson
  noteDependent _ _ _ := Work.keeps_noteDependent fun _ _ _ _ h => h.withState ⟨rfl, rfl⟩ rfl
  noteContained _ _ _ := Work.keeps_noteContained fun _ _ _ _ h => h.withState ⟨rfl, rfl⟩ rfl
  merged hf name := by
    refine Work.keeps_takeMerged (fun _ h => h) fun world merged hmerged h => ?_
    exact h.keepMerged _ (h.toRestsOn.mergedIn_descends _ hf name merged hmerged).derived
  mergedNested hf name definition containing := by
    refine Work.keeps_takeMerged (fun _ h => h) fun world merged hmerged h => ?_
    exact h.keepMerged _ (h.toRestsOn.mergedNested_derived hf hmerged)
  construct _ _ _ _ _ := Work.keeps_construct fun world made construction h => h.of_states rfl
  product _ _ _ _ _ := by
    refine Work.keeps_productOf (fun _ h => h) (fun _ _ _ hab hbc h => hbc (hab h)) ?_ ?_ ?_
    · exact Work.keeps_newProduct (fun _ _ _ hab hbc h => hbc (hab h))
        (fun _ _ _ h => h.of_states rfl) fun _ _ h => h.of_states rfl
    · exact fun _ _ h => h.withState ⟨rfl, rfl⟩ rfl
    · exact fun _ _ _ h => h.of_states rfl
  guarded _ _ _ hwork :=
    Work.keeps_guarded (fun _ h => h) (fun _ _ _ hab hbc h => hbc (hab h)) hwork fun _ _ h =>
      h.withState ⟨rfl, rfl⟩ rfl
  singletonOr _ _ _ hcreate :=
    Work.keeps_singletonOr (fun _ h => h) (fun _ _ _ hab hbc h => hbc (hab h)) hcreate fun _ _ h =>
      h.withState ⟨rfl, rfl⟩ rfl

end World

/-- **Asking keeps to what a base says.** -/
theorem Inquiry.keeping (base : World) (member : family.Member) (depth : Nat) (inquiry : Inquiry) :
    (inquiry.answer depth member.registry member.ancestors).Keeps fun world after =>
      World.Keeping family base world → World.Keeping family base after :=
  (World.container_keeping family base).answer member.has (fun _ _ h => h.of_states rfl) depth inquiry

end Injector
