import Injector.Proofs.Merging.Descent
import Mathlib.Order.WellFoundedSet

/-!
# What merged definitions are made of

The texts, the nested definitions and the prerequisites of a merged definition are those of the
definitions that it is merged from (`World.Contributes`). The same goes for a nested definition that is
completed by its parent (`World.Draws`). So whatever is built on the way to a bean, is built from the
definitions that occur in its containers, and these are finitely many (`World.exists_occurring`).

Building a nested bean leads on to what is nested in its completed definition (`World.Nests`). If no
nested definition leads back to itself, this comes to an end everywhere (`World.nests_induction`).
-/

namespace Injector

/-! ## Parts of definitions -/

namespace DefinitionOf

/-- All texts, nested definitions and prerequisites of a definition are those of some parts. -/
structure MadeOf (parts : Definition → Prop) (definition : Definition) : Prop where
  texts : ∀ text ∈ definition.texts, ∃ part, parts part ∧ text ∈ part.texts
  nested : ∀ inner ∈ definition.nested, ∃ part, parts part ∧ inner ∈ part.nested
  prerequisites : ∀ name ∈ definition.dependsOn, ∃ part, parts part ∧ name ∈ part.dependsOn

namespace MadeOf

variable {parts others : Definition → Prop} {definition parent child : Definition}

theorem itself (h : parts definition) : MadeOf parts definition where
  texts _ hmem := ⟨definition, h, hmem⟩
  nested _ hmem := ⟨definition, h, hmem⟩
  prerequisites _ hmem := ⟨definition, h, hmem⟩

theorem mono (h : MadeOf parts definition) (hsub : ∀ part, parts part → others part) :
    MadeOf others definition where
  texts text hmem := (h.texts text hmem).imp fun part => And.imp_left (hsub part)
  nested inner hmem := (h.nested inner hmem).imp fun part => And.imp_left (hsub part)
  prerequisites name hmem := (h.prerequisites name hmem).imp fun part => And.imp_left (hsub part)

/-- Notes make no difference. -/
theorem bare_iff : MadeOf parts definition.bare ↔ MadeOf parts definition := by
  constructor
  · intro h
    exact ⟨definition.texts_bare ▸ h.texts, definition.nested_bare ▸ h.nested, h.prerequisites⟩
  · intro h
    exact ⟨definition.texts_bare.symm ▸ h.texts, definition.nested_bare.symm ▸ h.nested,
      h.prerequisites⟩

theorem overlay (hparent : MadeOf parts parent) (hchild : MadeOf parts child) :
    MadeOf parts (parent.overlay child) where
  texts text hmem := (texts_overlay parent child hmem).elim (hparent.texts text) (hchild.texts text)
  nested inner hmem :=
    (nested_overlay parent child hmem).elim (hparent.nested inner) (hchild.nested inner)
  prerequisites name hmem :=
    ((mem_joinNames _ _ name).mp hmem).elim (hparent.prerequisites name) (hchild.prerequisites name)

/-- The scope makes no difference. -/
theorem within (h : MadeOf parts definition) (containing : Option Definition) :
    MadeOf parts (definition.within containing) := by
  unfold DefinitionOf.within
  split
  · split
    · exact ⟨h.texts, h.nested, h.prerequisites⟩
    · exact h
  · exact h

end MadeOf

end DefinitionOf

namespace World

/-! ## Where parts come from -/

/-- Where the parent of a definition is looked for, given the name of the definition and that of the
parent: a definition that names itself as its parent means that of the ancestors. -/
def parentPlace (world : World) (registry : Registry) (ancestors : Chain) (name parentName : String) :
    Chain × String :=
  let target := (world.state registry.index).canonicalName parentName
  if target = name then (ancestors, world.canonicalIn ancestors name)
  else (registry :: ancestors, target)

/-- The definitions that the merged definition of a name is made of. What is kept counts as a whole. -/
inductive Contributes (world : World) : Chain → String → Definition → Prop
  | kept {registry : Registry} {ancestors : Chain} {name : String} {definition : Definition}
      (hkept : (world.state registry.index).merged.find? name = some definition) :
      Contributes world (registry :: ancestors) name definition
  | own {registry : Registry} {ancestors : Chain} {name : String} {definition : Definition}
      (hunkept : (world.state registry.index).merged.find? name = none)
      (hdefined : (world.state registry.index).definitions.find? name = some definition) :
      Contributes world (registry :: ancestors) name definition
  | above {registry : Registry} {ancestors : Chain} {name : String} {part : Definition}
      (hunkept : (world.state registry.index).merged.find? name = none)
      (hundefined : (world.state registry.index).definitions.find? name = none)
      (h : Contributes world ancestors (world.canonicalIn ancestors name) part) :
      Contributes world (registry :: ancestors) name part
  | inherited {registry : Registry} {ancestors : Chain} {name parentName : String}
      {definition part : Definition}
      (hunkept : (world.state registry.index).merged.find? name = none)
      (hdefined : (world.state registry.index).definitions.find? name = some definition)
      (hparent : definition.parent = some parentName)
      (h : Contributes world (world.parentPlace registry ancestors name parentName).1
        (world.parentPlace registry ancestors name parentName).2 part) :
      Contributes world (registry :: ancestors) name part

/-- The definitions that a definition of a name is completed from: itself, and what the merged
definition of its parent is made of. -/
def Draws (world : World) (registry : Registry) (ancestors : Chain) (name : String)
    (definition part : Definition) : Prop :=
  part = definition ∨ ∃ parentName, definition.parent = some parentName ∧
    world.Contributes (world.parentPlace registry ancestors name parentName).1
      (world.parentPlace registry ancestors name parentName).2 part

/-- A definition is nested in another one, or in one that this is completed from. -/
def Nests (world : World) (registry : Registry) (ancestors : Chain)
    (outer inner : String × Definition) : Prop :=
  ∃ part, world.Draws registry ancestors outer.1 outer.2 part ∧ inner ∈ part.nested

/-- A definition is registered or kept as merged in a container of a chain, or nested in one that is. -/
inductive Occurs (world : World) (chain : Chain) : Definition → Prop
  | registered {registry : Registry} {name : String} {definition : Definition} (hmem : registry ∈ chain)
      (h : (world.state registry.index).definitions.find? name = some definition) :
      Occurs world chain definition
  | merged {registry : Registry} {name : String} {definition : Definition} (hmem : registry ∈ chain)
      (h : (world.state registry.index).merged.find? name = some definition) :
      Occurs world chain definition
  | nested {outer : Definition} {inner : String × Definition} (houter : Occurs world chain outer)
      (h : inner ∈ outer.nested) : Occurs world chain inner.2

variable {family : Family} {world base : World} {registry : Registry} {ancestors chain : Chain}
  {name : String} {definition part : Definition}

theorem Occurs.mono {chain' : Chain} (h : world.Occurs chain definition) (hsub : chain ⊆ chain') :
    world.Occurs chain' definition := by
  induction h with
  | registered hmem h => exact .registered (hsub hmem) h
  | merged hmem h => exact .merged (hsub hmem) h
  | nested _ h ih => exact .nested ih h

theorem parentPlace_subset (parentName : String) :
    (world.parentPlace registry ancestors name parentName).1 ⊆ registry :: ancestors := by
  unfold parentPlace
  dsimp only
  split
  · exact List.subset_cons_self _ _
  · exact List.Subset.refl _

theorem Contributes.occurs (h : world.Contributes chain name part) : world.Occurs chain part := by
  induction h with
  | kept hkept => exact .merged List.mem_cons_self hkept
  | own _ hdefined => exact .registered List.mem_cons_self hdefined
  | above _ _ _ ih => exact ih.mono (List.subset_cons_self _ _)
  | inherited _ _ _ _ ih => exact ih.mono (parentPlace_subset _)

theorem Draws.occurs (h : world.Draws registry ancestors name definition part)
    (hoccurs : world.Occurs (registry :: ancestors) definition) :
    world.Occurs (registry :: ancestors) part := by
  rcases h with rfl | ⟨parentName, -, h⟩
  · exact hoccurs
  · exact h.occurs.mono (parentPlace_subset parentName)

/-- **What a descent comes to is made of what contributes to it.** -/
theorem Descent.madeOf {further : Nat} (h : world.Descent chain name further definition) :
    definition.MadeOf (world.Contributes chain name) := by
  induction h with
  | kept hkept => exact DefinitionOf.MadeOf.bare_iff.mpr (.itself (.kept hkept))
  | root hunkept hdefined _ => exact DefinitionOf.MadeOf.bare_iff.mpr (.itself (.own hunkept hdefined))
  | above hunkept hundefined _ ih => exact ih.mono fun _ => .above hunkept hundefined
  | near hunkept hdefined hparent hother _ ih =>
    refine .overlay (ih.mono fun part hpart => .inherited hunkept hdefined hparent ?_)
      (DefinitionOf.MadeOf.bare_iff.mpr (.itself (.own hunkept hdefined)))
    unfold parentPlace
    dsimp only
    rw [if_neg hother]
    exact hpart
  | own hunkept hdefined hparent hsame _ ih =>
    refine .overlay (ih.mono fun part hpart => .inherited hunkept hdefined hparent ?_)
      (DefinitionOf.MadeOf.bare_iff.mpr (.itself (.own hunkept hdefined)))
    unfold parentPlace
    dsimp only
    rw [if_pos hsame]
    exact hpart

/-- A merged definition that is what the base says is made of what contributes to it there. -/
theorem Descends.madeOf {merged : Merged} (h : Descends family base chain name merged) :
    merged.definition.MadeOf (base.Contributes chain name) := by
  obtain ⟨_, hdescent⟩ := h.descent
  exact DefinitionOf.MadeOf.bare_iff.mp hdescent.madeOf

/-- **A nested definition is completed from itself and from what contributes to its parent.** -/
theorem RestsOn.mergedNested_madeOf (h : RestsOn family base world)
    (hf : family.Has (registry :: ancestors)) {containing : Option Definition} {merged : Merged}
    (hok : world.mergedNested (registry :: ancestors) name definition containing = .ok merged) :
    merged.definition.MadeOf (base.Draws registry ancestors name definition) := by
  have hself : definition.MadeOf (base.Draws registry ancestors name definition) := .itself (Or.inl rfl)
  rcases h.mergedNested_eq_ok hf hok with ⟨-, rfl⟩ | ⟨parentName, parent, hparent, hdescends, rfl⟩
  · exact hself.within containing
  · have hmade : parent.definition.MadeOf
        (base.Contributes (base.parentPlace registry ancestors name parentName).1
          (base.parentPlace registry ancestors name parentName).2) := by
      unfold parentPlace
      dsimp only
      split at hdescends
      · next hsame =>
        rw [if_pos hsame]
        exact hdescends.madeOf
      · next hother =>
        rw [if_neg hother]
        exact hdescends.madeOf
    have hinherited : parent.definition.MadeOf (base.Draws registry ancestors name definition) :=
      hmade.mono fun _ hpart => Or.inr ⟨parentName, hparent, hpart⟩
    exact (hinherited.overlay hself).within containing

/-! ## Finitely many definitions -/

/-- The definitions that are registered or kept as merged in a container. -/
def heldBy (world : World) (registry : Registry) : List Definition :=
  let state := world.state registry.index
  state.definitions.keys.filterMap state.definitions.find? ++
    state.merged.keys.filterMap state.merged.find?

theorem mem_filterMap_find? {table : Table Definition} (h : table.find? name = some definition) :
    definition ∈ table.keys.filterMap table.find? :=
  List.mem_filterMap.mpr
    ⟨name, (table.contains_iff_mem_keys name).mp (Table.contains_of_find? h), h⟩

/-- What occurs in a chain is among the definitions that its containers hold and what is nested in them. -/
theorem Occurs.mem_of_closed {all : List Definition}
    (hheld : ∀ registry ∈ chain, world.heldBy registry ⊆ all)
    (hclosed : ∀ outer ∈ all, ∀ inner ∈ outer.nested, inner.2 ∈ all)
    (h : world.Occurs chain definition) : definition ∈ all := by
  induction h with
  | registered hmem h => exact hheld _ hmem (List.mem_append_left _ (mem_filterMap_find? h))
  | merged hmem h => exact hheld _ hmem (List.mem_append_right _ (mem_filterMap_find? h))
  | nested _ h ih => exact hclosed _ ih _ h

/-- **Finitely many definitions occur in a chain.** -/
theorem exists_occurring (world : World) (chain : Chain) :
    ∃ all : List Definition, ∀ definition, world.Occurs chain definition → definition ∈ all := by
  obtain ⟨within, hsub, hclosed⟩ :=
    DefinitionOf.exists_closed ((chain.flatMap world.heldBy).flatMap DefinitionOf.nested)
  refine ⟨chain.flatMap world.heldBy ++ within.map Prod.snd, fun definition =>
    Occurs.mem_of_closed (fun registry hmem held hheld => ?_) fun outer houter inner hinner => ?_⟩
  · exact List.mem_append_left _ (List.mem_flatMap_of_mem hmem hheld)
  · refine List.mem_append_right _ (List.mem_map_of_mem ?_)
    rcases List.mem_append.mp houter with hheld | hwithin
    · exact hsub (List.mem_flatMap_of_mem hheld hinner)
    · obtain ⟨other, hother, rfl⟩ := List.mem_map.mp hwithin
      exact hclosed other hother hinner

/-- A nested definition, with the name it goes by, in one that occurs in a chain. -/
def OccursNested (world : World) (chain : Chain) (inner : String × Definition) : Prop :=
  ∃ outer, world.Occurs chain outer ∧ inner ∈ outer.nested

theorem OccursNested.occurs {inner : String × Definition} (h : world.OccursNested chain inner) :
    world.Occurs chain inner.2 := by
  obtain ⟨outer, houter, hmem⟩ := h
  exact .nested houter hmem

theorem finite_occursNested (world : World) (chain : Chain) :
    {inner | world.OccursNested chain inner}.Finite := by
  obtain ⟨all, hall⟩ := world.exists_occurring chain
  refine (List.finite_toSet (all.flatMap DefinitionOf.nested)).subset ?_
  rintro inner ⟨outer, houter, hmem⟩
  exact List.mem_flatMap_of_mem (hall outer houter) hmem

theorem Nests.occursNested {outer inner : String × Definition}
    (h : world.Nests registry ancestors outer inner)
    (houter : world.OccursNested (registry :: ancestors) outer) :
    world.OccursNested (registry :: ancestors) inner := by
  obtain ⟨part, hdraws, hmem⟩ := h
  exact ⟨part, hdraws.occurs houter.occurs, hmem⟩

/-- **If no nested definition leads back to itself, what holds of a nested definition if it holds of all
that it leads on to, holds of all of them.** -/
theorem nests_induction {P : String × Definition → Prop}
    (hacyclic : ∀ inner, world.OccursNested (registry :: ancestors) inner →
      ¬ Relation.TransGen (world.Nests registry ancestors) inner inner)
    (hstep : ∀ outer, world.OccursNested (registry :: ancestors) outer →
      (∀ inner, world.Nests registry ancestors outer inner → P inner) → P outer)
    {inner : String × Definition} (h : world.OccursNested (registry :: ancestors) inner) : P inner := by
  let Leads (inner outer : String × Definition) : Prop :=
    world.OccursNested (registry :: ancestors) outer ∧
      Relation.TransGen (world.Nests registry ancestors) outer inner
  have : IsStrictOrder _ Leads :=
    { irrefl := fun inner h => hacyclic inner h.1 h.2
      trans := fun _ _ _ hab hbc => ⟨hbc.1, hbc.2.trans hab.2⟩ }
  have hwf := (world.finite_occursNested (registry :: ancestors)).wellFoundedOn (r := Leads)
  refine hwf.induction h fun outer houter ih => hstep outer houter fun inner hnests => ?_
  exact ih inner (hnests.occursNested houter) ⟨houter, .single hnests⟩

end World

end Injector
