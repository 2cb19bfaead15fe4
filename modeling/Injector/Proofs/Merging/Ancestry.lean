import Injector.Proofs.Merging.Descent
import Mathlib.Logic.Relation

/-!
# Ancestries

A definition may name a parent, which the container of the definition looks up: by its aliases first,
then among its own definitions, then in its ancestors. A name that stands for the definition's own is
looked up in the ancestors alone. So each definition has one parent at most (`World.HasParent`), and
going from parent to parent there are three ways it can end: with a definition without a parent, with a
parent that is defined nowhere, or not at all, because a definition is met again.

Where nothing is kept of earlier merges, merging decides which of these it is
(`World.mergedDefinition_decided`). In the first case it gives the ancestors laid over each other, and in
the others it fails.

* `World.Ancestry.of_transGen` is why the three exclude each other: on the way to a root, ancestries get
  shorter.
* `World.mergedFrom_decides` follows the parents in one container. What it has entered is on the way to
  where it is, so entering it again closes a circle.
* `World.mergedIn_decides` puts the containers together.
-/

namespace Injector

open Relation

/-! ## Definitions in their places -/

/-- A definition in its place: the container that has it, the containers above, and its name there. -/
structure Site where
  registry : Registry
  ancestors : Chain
  name : String
  definition : Definition

namespace World

/-- The first definition of a name in a chain of containers. Each container above follows its own aliases
from the name. -/
def siteFrom (world : World) : Chain → String → Option Site
  | [], _ => none
  | registry :: ancestors, name =>
    match (world.state registry.index).definitions.find? name with
    | some definition => some { registry, ancestors, name, definition }
    | none => world.siteFrom ancestors (world.canonicalIn ancestors name)

/-- The definition that a chain of containers has for a name, which may be an alias. -/
def siteIn (world : World) (chain : Chain) (name : String) : Option Site :=
  world.siteFrom chain (world.canonicalIn chain name)

/-- The definition that a definition means by the name of a parent. It never means itself. -/
def parentSite (world : World) (site : Site) (parentName : String) : Option Site :=
  let target := (world.state site.registry.index).canonicalName parentName
  if target = site.name then world.siteIn site.ancestors target
  else world.siteFrom (site.registry :: site.ancestors) target

/-- The first definition names the second one as its parent. -/
def HasParent (world : World) (site parent : Site) : Prop :=
  ∃ parentName, site.definition.parent = some parentName ∧
    world.parentSite site parentName = some parent

/-- The definitions from one without a parent, which is the root, down to that of a site, each the parent of
the next one. The root stands apart. -/
inductive Ancestry (world : World) : Site → Definition → List Definition → Prop
  | root {site : Site} (hroot : site.definition.parent = none) :
      Ancestry world site site.definition []
  | child {site parent : Site} {root : Definition} {rest : List Definition}
      (hparent : world.HasParent site parent) (h : Ancestry world parent root rest) :
      Ancestry world site root (rest ++ [site.definition])

/-- Going from parent to parent, the name of one is met that is not defined. -/
def MeetsUndefined (world : World) (site : Site) : Prop :=
  ∃ last parentName, ReflTransGen world.HasParent site last ∧
    last.definition.parent = some parentName ∧ world.parentSite last parentName = none

/-- Going from parent to parent, a definition is met that is met again. -/
def Revisits (world : World) (site : Site) : Prop :=
  ∃ last, ReflTransGen world.HasParent site last ∧ TransGen world.HasParent last last

variable {world : World} {site parent : Site}

/-! ### At most one of the three -/

/-- A definition has one parent at most. -/
theorem HasParent.unique {other : Site} (h : world.HasParent site parent)
    (h' : world.HasParent site other) : parent = other := by
  obtain ⟨parentName, hname, hparent⟩ := h
  obtain ⟨otherName, hname', hother⟩ := h'
  cases hname.symm.trans hname'
  exact Option.some.inj (hparent.symm.trans hother)

/-- A name that stands for another one than the definition's own is looked up from its container on. -/
theorem parentSite_of_ne {parentName : String}
    (h : (world.state site.registry.index).canonicalName parentName ≠ site.name) :
    world.parentSite site parentName =
      world.siteFrom (site.registry :: site.ancestors)
        ((world.state site.registry.index).canonicalName parentName) :=
  if_neg h

/-- What has a parent gets its ancestry from there. -/
theorem Ancestry.of_hasParent {root : Definition} {rest : List Definition}
    (h : world.Ancestry site root rest) (hparent : world.HasParent site parent) :
    ∃ rest', world.Ancestry parent root rest' ∧ rest = rest' ++ [site.definition] := by
  cases h with
  | root hroot =>
    obtain ⟨parentName, hname, -⟩ := hparent
    rw [hroot] at hname
    cases hname
  | child hparent' h =>
    rw [hparent.unique hparent']
    exact ⟨_, h, rfl⟩

/-- There is one ancestry at most. -/
theorem Ancestry.unique {root root' : Definition} {rest rest' : List Definition}
    (h : world.Ancestry site root rest) (h' : world.Ancestry site root' rest') :
    root = root' ∧ rest = rest' := by
  induction h generalizing rest' with
  | root hroot =>
    cases h' with
    | root => exact ⟨rfl, rfl⟩
    | child hparent _ =>
      obtain ⟨parentName, hname, -⟩ := hparent
      rw [hroot] at hname
      cases hname
  | child hparent _ ih =>
    obtain ⟨rest'', hrest, rfl⟩ := h'.of_hasParent hparent
    obtain ⟨rfl, rfl⟩ := ih hrest
    exact ⟨rfl, rfl⟩

/-- **On the way to the root, ancestries get shorter.** -/
theorem Ancestry.of_transGen {root : Definition} {rest : List Definition} {last : Site}
    (h : world.Ancestry site root rest) (hpath : TransGen world.HasParent site last) :
    ∃ rest', world.Ancestry last root rest' ∧ rest'.length < rest.length := by
  induction hpath with
  | single hparent =>
    obtain ⟨rest', hrest, rfl⟩ := h.of_hasParent hparent
    exact ⟨rest', hrest, by simp⟩
  | tail _ hparent ih =>
    obtain ⟨rest', hrest, hlt⟩ := ih
    obtain ⟨rest'', hrest', rfl⟩ := hrest.of_hasParent hparent
    exact ⟨rest'', hrest', by simp at hlt; omega⟩

theorem Ancestry.of_reflTransGen {root : Definition} {rest : List Definition} {last : Site}
    (h : world.Ancestry site root rest) (hpath : ReflTransGen world.HasParent site last) :
    ∃ rest', world.Ancestry last root rest' := by
  rcases reflTransGen_iff_eq_or_transGen.1 hpath with rfl | hpath
  · exact ⟨rest, h⟩
  · obtain ⟨rest', hrest, -⟩ := h.of_transGen hpath
    exact ⟨rest', hrest⟩

/-- What has an ancestry does not meet a name that is undefined. -/
theorem Ancestry.not_meetsUndefined {root : Definition} {rest : List Definition}
    (h : world.Ancestry site root rest) : ¬ world.MeetsUndefined site := by
  rintro ⟨last, parentName, hpath, hname, hnone⟩
  obtain ⟨rest', hrest⟩ := h.of_reflTransGen hpath
  cases hrest with
  | root hroot =>
    rw [hroot] at hname
    cases hname
  | child hparent _ =>
    obtain ⟨parentName', hname', hparent⟩ := hparent
    cases hname.symm.trans hname'
    rw [hnone] at hparent
    cases hparent

/-- What has an ancestry does not go round in a circle. -/
theorem Ancestry.not_revisits {root : Definition} {rest : List Definition}
    (h : world.Ancestry site root rest) : ¬ world.Revisits site := by
  rintro ⟨last, hpath, hcircle⟩
  obtain ⟨rest', hrest⟩ := h.of_reflTransGen hpath
  obtain ⟨rest'', hrest', hlt⟩ := hrest.of_transGen hcircle
  rw [(hrest.unique hrest').2] at hlt
  exact Nat.lt_irrefl _ hlt

/-- What a parent meets, its child meets. -/
theorem MeetsUndefined.of_hasParent (h : world.MeetsUndefined parent)
    (hparent : world.HasParent site parent) : world.MeetsUndefined site := by
  obtain ⟨last, parentName, hpath, hlast⟩ := h
  exact ⟨last, parentName, .head hparent hpath, hlast⟩

theorem Revisits.of_hasParent (h : world.Revisits parent) (hparent : world.HasParent site parent) :
    world.Revisits site := by
  obtain ⟨last, hpath, hcircle⟩ := h
  exact ⟨last, .head hparent hpath, hcircle⟩

/-! ## Merging decides -/

/-- The outcome of merging the definition of a site, if there is one, is a matter of its ancestry: it has one
and that is what the outcome is laid together from, or it has none and the outcome is a failure. -/
def Decides (world : World) (site? : Option Site) (outcome : Except Failure Merged) : Prop :=
  match outcome with
  | .ok merged =>
    ∃ site root rest, site? = some site ∧ world.Ancestry site root rest ∧
      merged.definition = rest.foldl DefinitionOf.overlay root
  | .error _ => ∀ site, site? = some site → world.MeetsUndefined site ∨ world.Revisits site

/-- **Completing a definition decides if merging its parent does.** -/
theorem complete_decides (site : Site) {near above : String → Except Failure Merged}
    (h : ∀ parentName, site.definition.parent = some parentName →
      world.Decides (world.parentSite site parentName)
        (if (world.state site.registry.index).canonicalName parentName = site.name then
            above ((world.state site.registry.index).canonicalName parentName)
          else near ((world.state site.registry.index).canonicalName parentName))) :
    world.Decides (some site)
      ((world.state site.registry.index).complete site.name site.definition none near above) := by
  unfold State.complete
  cases hname : site.definition.parent with
  | none => exact ⟨site, site.definition, [], rfl, .root hname, rfl⟩
  | some parentName =>
    have hdecides := h parentName hname
    dsimp only
    split
    · next failure hfailure =>
      rw [hfailure] at hdecides
      intro _ hsite
      cases hsite
      cases hfound : world.parentSite site parentName with
      | none => exact .inl ⟨site, parentName, .refl, hname, hfound⟩
      | some parent =>
        have hparent : world.HasParent site parent := ⟨parentName, hname, hfound⟩
        exact (hdecides parent hfound).imp (·.of_hasParent hparent) (·.of_hasParent hparent)
    · next merged hmerged =>
      rw [hmerged] at hdecides
      obtain ⟨parent, root, rest, hfound, hancestry, hdefinition⟩ := hdecides
      have hparent : world.HasParent site parent := ⟨parentName, hname, hfound⟩
      refine ⟨site, root, rest ++ [site.definition], rfl, .child hparent hancestry, ?_⟩
      rw [List.foldl_append, ← hdefinition]
      rfl

/-- The site, if there is one, is among the ancestors of all definitions of a container that were entered. -/
def FollowsEntered (world : World) (registry : Registry) (ancestors : Chain) (unentered : List String)
    (site? : Option Site) : Prop :=
  ∀ entered definition, entered ∉ unentered →
    (world.state registry.index).definitions.find? entered = some definition →
    ∀ site, site? = some site →
      TransGen world.HasParent ⟨registry, ancestors, entered, definition⟩ site

variable {registry : Registry} {ancestors : Chain}

/-- The parent of what is entered follows what was entered before, and now that as well. -/
theorem FollowsEntered.enter {unentered : List String} {name : String} {definition : Definition}
    {parent? : Option Site}
    (h : world.FollowsEntered registry ancestors unentered (some ⟨registry, ancestors, name, definition⟩))
    (hdefined : (world.state registry.index).definitions.find? name = some definition)
    (hparent : ∀ parent, parent? = some parent →
      world.HasParent ⟨registry, ancestors, name, definition⟩ parent) :
    world.FollowsEntered registry ancestors (unentered.erase name) parent? := by
  intro entered definition' hentered hdefined' parent hfound
  by_cases hsame : entered = name
  · subst hsame
    cases hdefined.symm.trans hdefined'
    exact .single (hparent parent hfound)
  · have hearlier : entered ∉ unentered := fun hmem => hentered ((List.mem_erase_of_ne hsame).2 hmem)
    exact .tail (h entered definition' hearlier hdefined' _ rfl) (hparent parent hfound)

section

variable {above : String → Except Failure Merged}
  (hempty : (world.state registry.index).merged = .empty)
  (habove : ∀ name, world.Decides (world.siteIn ancestors name) (above name))

include hempty habove

/-- In one container, merging decides if it does in the ancestors. -/
theorem mergedFrom_decides (unentered : List String) (name : String)
    (hentered : world.FollowsEntered registry ancestors unentered
      (world.siteFrom (registry :: ancestors) name)) :
    world.Decides (world.siteFrom (registry :: ancestors) name)
      ((world.state registry.index).mergedFrom registry.index above unentered name) := by
  rw [State.mergedFrom, hempty, Table.find?_empty]
  dsimp only
  rw [siteFrom] at hentered ⊢
  cases hdefined : (world.state registry.index).definitions.find? name with
  | none => exact habove name
  | some definition =>
    rw [hdefined] at hentered
    dsimp only at hentered ⊢
    by_cases hmem : name ∈ unentered
    · rw [dif_pos hmem]
      have hcompleted : world.Decides (some ⟨registry, ancestors, name, definition⟩)
          ((world.state registry.index).complete name definition none
            ((world.state registry.index).mergedFrom registry.index above (unentered.erase name)) above) := by
        refine complete_decides ⟨registry, ancestors, name, definition⟩ fun parentName hname => ?_
        unfold parentSite
        dsimp only
        split
        · exact habove _
        · next hother =>
          -- the parent is looked for in the same container, in which this definition is entered now
          refine mergedFrom_decides _ _ (hentered.enter hdefined fun parent hfound => ?_)
          exact ⟨parentName, hname, (parentSite_of_ne hother).trans hfound⟩
      split
      · next failure hfailure =>
        rw [hfailure] at hcompleted
        exact hcompleted
      · next merged hmerged =>
        rw [hmerged] at hcompleted
        exact hcompleted
    · -- what is entered again is among its own ancestors
      rw [dif_neg hmem]
      rintro site ⟨⟩
      exact .inr ⟨_, .refl, hentered name definition hmem hdefined _ rfl⟩
termination_by unentered.length
decreasing_by exact State.length_erase_lt hmem

end

/-- **Where nothing is kept, merging decides.** -/
theorem mergedIn_decides :
    ∀ chain : Chain, (∀ registry ∈ chain, (world.state registry.index).merged = .empty) →
      ∀ name, world.Decides (world.siteIn chain name) (world.mergedIn chain name)
  | [], _, _ => fun _ hsite => nomatch hsite
  | registry :: ancestors, hempty, name => by
    have habove := mergedIn_decides ancestors fun above h => hempty above (List.mem_cons_of_mem _ h)
    refine mergedFrom_decides (hempty registry List.mem_cons_self) habove _ _ ?_
    intro entered definition hentered hdefined
    -- nothing was entered yet
    have hcontains := Table.contains_of_find? hdefined
    exact absurd ((Table.contains_iff_mem_keys _ _).1 hcontains) hentered

/-- The definition of a site is refused, if it is, for its parent. -/
theorem mergedIn_eq_error (hempty : (world.state site.registry.index).merged = .empty) {name : String}
    (hname : (world.state site.registry.index).canonicalName name = site.name)
    (hdefined : (world.state site.registry.index).definitions.find? site.name = some site.definition)
    {failure : Failure}
    (h : world.mergedIn (site.registry :: site.ancestors) name = .error failure) :
    ∃ parentName cause, site.definition.parent = some parentName ∧
      failure = .invalidDefinition site.definition.resource (some site.name)
        (.unresolvedParent parentName cause) := by
  have hmem := (Table.contains_iff_mem_keys _ _).1 (Table.contains_of_find? hdefined)
  rw [mergedIn, hname, State.mergedFrom, hempty, Table.find?_empty, hdefined] at h
  dsimp only at h
  rw [dif_pos hmem] at h
  split at h
  · next hrefused =>
    cases h
    exact State.complete_eq_error hrefused
  · cases h

/-- A definition that is completed by its ancestors has no parent left. -/
theorem Ancestry.parent_eq_none {root : Definition} {rest : List Definition}
    (h : world.Ancestry site root rest) : (rest.foldl DefinitionOf.overlay root).parent = none := by
  cases h with
  | root hroot => exact hroot
  | child => rw [List.foldl_append]; rfl

/-- **The merged definition of a name is its ancestors' laid over each other, from the root to its own
definition, and a name without an ancestry is refused.** Nothing is kept of earlier merges in the chain of
containers, and the first of them defines the name, which may be given by an alias. Going from parent to
parent, one comes to a root, to a name that is not defined, or to a definition that was there before. The
refusal is that of the name's own definition. -/
theorem mergedDefinition_decided (name : String)
    (hempty : ∀ registry ∈ site.registry :: site.ancestors,
      (world.state registry.index).merged = .empty)
    (hname : (world.state site.registry.index).canonicalName name = site.name)
    (hdefined : (world.state site.registry.index).definitions.find? site.name =
      some site.definition) :
    (∀ root rest, world.Ancestry site root rest →
        (mergedDefinition (site.registry :: site.ancestors) name world).1 =
            .ok (rest.foldl DefinitionOf.overlay root) ∧
          (rest.foldl DefinitionOf.overlay root).parent = none) ∧
      (world.MeetsUndefined site ∨ world.Revisits site →
        ∃ parentName cause, site.definition.parent = some parentName ∧
          (mergedDefinition (site.registry :: site.ancestors) name world).1 =
            .error (.failure (.invalidDefinition site.definition.resource (some site.name)
              (.unresolvedParent parentName cause)))) ∧
      ((∃ root rest, world.Ancestry site root rest) ∨ world.MeetsUndefined site ∨
        world.Revisits site) := by
  have hsite : world.siteIn (site.registry :: site.ancestors) name = some site := by
    show world.siteFrom _ ((world.state site.registry.index).canonicalName name) = _
    rw [hname, siteFrom, hdefined]
  have hdecides := mergedIn_decides (site.registry :: site.ancestors) hempty name
  rw [hsite] at hdecides
  unfold mergedDefinition
  rw [Work.takeMerged_apply]
  cases hmerged : world.mergedIn (site.registry :: site.ancestors) name with
  | error failure =>
    -- by whatever way it failed, the name has no ancestry
    rw [hmerged] at hdecides
    have hfails : world.MeetsUndefined site ∨ world.Revisits site := hdecides site rfl
    obtain ⟨parentName, cause, hparent, rfl⟩ :=
      mergedIn_eq_error (hempty _ List.mem_cons_self) hname hdefined hmerged
    refine ⟨fun root rest hancestry => ?_, fun _ => ⟨parentName, cause, hparent, rfl⟩, .inr hfails⟩
    exact absurd hfails (not_or.2 ⟨hancestry.not_meetsUndefined, hancestry.not_revisits⟩)
  | ok merged =>
    rw [hmerged] at hdecides
    obtain ⟨_, root, rest, hfound, hancestry, hdefinition⟩ := hdecides
    cases hfound
    -- the ancestry that was followed is the only one
    refine ⟨fun root' rest' hancestry' => ?_, fun hfails => ?_, .inl ⟨root, rest, hancestry⟩⟩
    · obtain ⟨rfl, rfl⟩ := hancestry.unique hancestry'
      exact ⟨congrArg Except.ok hdefinition, hancestry.parent_eq_none⟩
    · exact absurd hfails (not_or.2 ⟨hancestry.not_meetsUndefined, hancestry.not_revisits⟩)

end World

/-- Two containers. The lower one has a `base` of its own, which completes the one above and is completed by
`leaf`, by its alias. Of the others, `ping` and `pong` complete each other, and `lost` has an undefined
parent. -/
def familyTrees : World where
  states := [
    { definitions := .ofList [("base", { className := some "Base", dependsOn := ["x"] })] },
    { definitions := .ofList [
        ("base", { parent := some "base", dependsOn := ["y", "x"] }),
        ("leaf", { parent := some "b", className := some "Leaf" }),
        ("ping", { parent := some "pong" }),
        ("pong", { parent := some "ping" }),
        ("lost", { parent := some "nowhere" })]
      aliases := .ofList [("b", "base")] }]

/-- The definition of the lower container for a name. -/
def lowerSite (name : String) (definition : Definition) : Site where
  registry := { index := 1 }
  ancestors := [{ index := 0 }]
  name := name
  definition := definition

/-- A leaf is completed by a parent and a grandparent above, a circle is refused, and so is what has an
undefined parent. -/
theorem mergedDefinition_familyTrees :
    (mergedDefinition [{ index := 1 }, { index := 0 }] "leaf" familyTrees).1 =
        .ok { className := some "Leaf", dependsOn := ["x", "y"] } ∧
      (∃ cause, (mergedDefinition [{ index := 1 }, { index := 0 }] "ping" familyTrees).1 =
        .error (.failure (.invalidDefinition none (some "ping") (.unresolvedParent "pong" cause)))) ∧
      ∃ cause, (mergedDefinition [{ index := 1 }, { index := 0 }] "lost" familyTrees).1 =
        .error (.failure (.invalidDefinition none (some "lost") (.unresolvedParent "nowhere" cause))) := by
  have hempty : ∀ registry ∈ ([{ index := 1 }, { index := 0 }] : Chain),
      (familyTrees.state registry.index).merged = .empty := by
    simp [familyTrees, World.state]
  have hbase : familyTrees.Ancestry (lowerSite "base" { parent := some "base", dependsOn := ["y", "x"] })
      { className := some "Base", dependsOn := ["x"] }
      ([] ++ [{ parent := some "base", dependsOn := ["y", "x"] }]) :=
    .child ⟨"base", rfl, rfl⟩ (.root rfl)
  have hleaf : familyTrees.Ancestry (lowerSite "leaf" { parent := some "b", className := some "Leaf" })
      { className := some "Base", dependsOn := ["x"] }
      ([] ++ [{ parent := some "base", dependsOn := ["y", "x"] }] ++
        [{ parent := some "b", className := some "Leaf" }]) :=
    .child ⟨"b", rfl, rfl⟩ hbase
  have hping : familyTrees.Revisits (lowerSite "ping" { parent := some "pong" }) :=
    ⟨_, .refl, .tail (.single ⟨"pong", rfl, rfl⟩) ⟨"ping", rfl, rfl⟩⟩
  have hlost : familyTrees.MeetsUndefined (lowerSite "lost" { parent := some "nowhere" }) :=
    ⟨_, "nowhere", .refl, rfl, rfl⟩
  refine ⟨?_, ?_, ?_⟩
  · exact ((World.mergedDefinition_decided "leaf" hempty rfl rfl).1 _ _ hleaf).1
  · obtain ⟨_, cause, hparent, hrefused⟩ :=
      (World.mergedDefinition_decided "ping" hempty rfl rfl).2.1 (.inr hping)
    cases hparent
    exact ⟨cause, hrefused⟩
  · obtain ⟨_, cause, hparent, hrefused⟩ :=
      (World.mergedDefinition_decided "lost" hempty rfl rfl).2.1 (.inl hlost)
    cases hparent
    exact ⟨cause, hrefused⟩

end Injector
