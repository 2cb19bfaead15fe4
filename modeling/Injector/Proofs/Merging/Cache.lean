import Injector.Proofs.Merging.Lineage
import Injector.Proofs.Names.AliasCycles

/-!
# Merged definitions that are kept

A container keeps the merged definitions that it has made, and drops them when a definition of its own
changes. But what a definition is completed by may also be a matter of its container's aliases, and of
definitions and aliases of its ancestors, and nothing is dropped when those change.

Asking never does harm: whatever is kept then is what the lineages say (`World.KeptGood.answer`). So
merging is coherent in a run exactly as long as no registration strands a definition: changes what its
merging from scratch would give, and leaves it kept (`mergesCoherent_iff_not_strands`).
-/

namespace Injector

variable {family : Family} {world : World}

/-! ## Asking for merged definitions -/

namespace World

/-- What asking for the merged definition of a name gives, without notes. -/
def mergedBare (world : World) (chain : Chain) (name : String) : Except Stop Definition :=
  (mergedDefinition chain name world).1.map DefinitionOf.bare

/-- What asking for it would give if no merged definitions were kept. -/
def scratch (world : World) (chain : Chain) (name : String) : Except Stop Definition :=
  world.withoutMerged.mergedBare chain name

/-- In all containers of the family, asking for a merged definition gives the same, but for notes, as if
no merged definitions were kept. -/
def MergesCoherent (family : Family) (world : World) : Prop :=
  ∀ (member : family.Member) (name : String),
    world.mergedBare member.chain name = world.scratch member.chain name

/-- Asking for a merged definition gives what merging gives. -/
theorem mergedBare_eq (world : World) (chain : Chain) (name : String) :
    world.mergedBare chain name =
      ((world.mergedIn chain name).map fun merged => merged.definition.bare).mapError Stop.failure := by
  unfold mergedBare mergedDefinition Work.takeMerged
  rw [Work.get_bind_apply, Work.bind_apply]
  dsimp only
  cases world.mergedIn chain name with
  | error failure => rfl
  | ok merged => rfl

/-- From scratch, a name is merged to what its lineage says. -/
theorem scratch_eq_ok_iff {chain : Chain} (hf : family.Has chain) {name : String}
    {definition : Definition} :
    world.scratch chain name = .ok definition ↔
      ∃ further, world.Lineage chain (world.canonicalIn chain name) further definition := by
  have hsources := sameSources_withoutMerged world
  have hkept : world.withoutMerged.KeptFresh family := keptFresh_withoutMerged world
  unfold scratch
  rw [mergedBare_eq]
  constructor
  · intro h
    cases hmerged : world.withoutMerged.mergedIn chain name with
    | error failure =>
      rw [hmerged] at h
      cases h
    | ok merged =>
      rw [hmerged] at h
      obtain ⟨further, hlineage⟩ := (mergedIn_sound hkept chain hf name merged hmerged).lineage
      rw [canonicalIn_congr hsources] at hlineage
      cases h
      exact ⟨further, hlineage.transport (State.sameSources_symm hsources)⟩
  · rintro ⟨further, hlineage⟩
    have hlineage' := hlineage.transport hsources
    rw [← canonicalIn_congr hsources] at hlineage'
    obtain ⟨merged, hmerged⟩ := mergedIn_of_lineage chain name further definition hlineage'
    obtain ⟨_, hsound⟩ := (mergedIn_sound hkept chain hf name merged hmerged).lineage
    rw [hmerged, (hsound.unique hlineage').2.symm]
    rfl

/-! ## What is kept, and what merging from scratch gives -/

/-- What is kept is what the lineages say, of names that are defined. -/
structure KeptGood (family : Family) (world : World) : Prop where
  fresh : world.KeptFresh family
  defined : ∀ index name, (world.state index).merged.contains name = true →
    (world.state index).definitions.contains name = true

theorem keptGood_empty : World.KeptGood family {} where
  fresh _ _ _ hkept := nomatch hkept
  defined _ _ hkept := nomatch hkept

/-- A name that is defined is no alias, so a chain looks for it as it is. -/
theorem canonicalIn_of_defined (hundefined : world.AliasesUndefined) {registry : Registry}
    (ancestors : Chain) {name : String}
    (hdefined : (world.state registry.index).definitions.contains name = true) :
    world.canonicalIn (registry :: ancestors) name = name :=
  hundefined.canonicalName hdefined

/-- What is kept is what merging from scratch gives. -/
theorem KeptGood.scratch (hkept : world.KeptGood family) (hundefined : world.AliasesUndefined)
    {member : family.Member} {name : String} {definition : Definition}
    (hfound : (world.state member.registry.index).merged.find? name = some definition) :
    world.scratch member.chain name = .ok definition.bare := by
  have hdefined : (world.state member.registry.index).definitions.contains name = true :=
    hkept.defined _ name (Table.contains_of_find? hfound)
  refine (scratch_eq_ok_iff member.chain_has).mpr ?_
  unfold Family.Member.chain
  rw [canonicalIn_of_defined hundefined _ hdefined]
  exact hkept.fresh member name definition hfound

theorem KeptFresh.of_scratch (hundefined : world.AliasesUndefined)
    (hdefined : ∀ index name, (world.state index).merged.contains name = true →
      (world.state index).definitions.contains name = true)
    (h : ∀ (member : family.Member) (name : String) (definition : Definition),
      (world.state member.registry.index).merged.find? name = some definition →
        world.scratch member.chain name = .ok definition.bare) : world.KeptFresh family := by
  intro member name definition hfound
  have hlineage := (scratch_eq_ok_iff member.chain_has).mp (h member name definition hfound)
  unfold Family.Member.chain at hlineage
  rw [canonicalIn_of_defined hundefined _ (hdefined _ name (Table.contains_of_find? hfound))]
    at hlineage
  exact hlineage

/-- **Merging is coherent exactly if all that is kept is what the lineages say.** -/
theorem mergesCoherent_iff (hundefined : world.AliasesUndefined)
    (hdefined : ∀ index name, (world.state index).merged.contains name = true →
      (world.state index).definitions.contains name = true) :
    world.MergesCoherent family ↔ world.KeptFresh family := by
  constructor
  · intro h
    refine KeptFresh.of_scratch hundefined hdefined fun member name definition hfound => ?_
    have hasked : world.mergedBare member.chain name = .ok definition.bare := by
      have hcanonical : (world.state member.registry.index).canonicalName name = name :=
        canonicalIn_of_defined hundefined [] (hdefined _ name (Table.contains_of_find? hfound))
      rw [mergedBare_eq, Family.Member.chain, mergedIn, hcanonical, State.mergedFrom, hfound]
      rfl
    rw [← h member name, hasked]
  · intro h member name
    unfold scratch
    rw [mergedBare_eq, mergedBare_eq, mergedIn_withoutMerged h member.chain_has]

/-! ## Asking does no harm -/

/-- What is kept is good if it keeps to what definitions and aliases alone say. -/
theorem KeptGood.keeping (h : world.KeptGood family) : Keeping family world.withoutMerged world where
  toRestsOn := h.fresh.restsOn
  defined index name hkept := by
    rw [(sameSources_withoutMerged world index).1]
    exact Or.inr (h.defined index name hkept)

theorem KeptGood.of_keeping {after : World} (h : Keeping family world.withoutMerged after) :
    after.KeptGood family where
  fresh member name definition hkept := by
    obtain ⟨further, hdescent⟩ := h.descends member name definition hkept
    have hsources : Statewise State.SameSources world after :=
      State.stateRelation_sameSources.statewise_trans _ _ _ (sameSources_withoutMerged world) h.sources
    exact ⟨further, (lineage_iff_descent.mpr hdescent).transport hsources⟩
  defined index name hkept := by
    rw [(h.sources index).1]
    rcases h.defined index name hkept with hbefore | hdefined
    · rw [Table.contains, find?_merged_withoutMerged] at hbefore
      cases hbefore
    · exact hdefined

/-- **Asking keeps what is kept good.** -/
theorem KeptGood.answer (h : world.KeptGood family) (member : family.Member) (depth : Nat)
    (inquiry : Inquiry) :
    (inquiry.answer depth member.registry member.ancestors world).2.KeptGood family :=
  .of_keeping (inquiry.keeping world.withoutMerged member depth world h.keeping)

end World

/-! ## Registering -/

/-- What a registration leaves kept was kept before, and if all that was kept before was defined, all
that is left is. -/
def State.KeepsLess (state after : State) : Prop :=
  (∀ name definition, after.merged.find? name = some definition →
      state.merged.find? name = some definition) ∧
    ((∀ name, state.merged.contains name = true → state.definitions.contains name = true) →
      ∀ name, after.merged.contains name = true → after.definitions.contains name = true)

theorem State.keepsLess_refl (state : State) : state.KeepsLess state :=
  ⟨fun _ _ h => h, fun h => h⟩

theorem State.keepsLess_trans (a b c : State) (hab : a.KeepsLess b) (hbc : b.KeepsLess c) :
    a.KeepsLess c :=
  ⟨fun name definition h => hab.1 name definition (hbc.1 name definition h), fun h => hbc.2 (hab.2 h)⟩

theorem Registry.take_keepsLess (registry : Registry) (registration : Registration) :
    (registry.take registration).Keeps (Statewise State.KeepsLess) := by
  refine Registry.take_statewise State.keepsLess_refl State.keepsLess_trans ?_ ?_ ?_ ?_ registration
  · intro name definition state after hok
    obtain ⟨-, -, rfl⟩ := State.define_eq_ok_iff.mp hok
    exact ⟨fun _ _ hkept => (nomatch hkept), fun _ _ hkept => (nomatch hkept)⟩
  · intro name shorthand state after hok
    rcases State.addAlias_eq_ok hok with ⟨-, rfl⟩ | ⟨-, rfl⟩ | ⟨-, -, -, -, rfl⟩
    · exact ⟨fun _ _ h => h, fun h => h⟩
    · exact ⟨fun _ _ h => h, fun h => h⟩
    · exact ⟨fun _ _ h => h, fun h => h⟩
  · intro name state after hok
    obtain ⟨-, rfl⟩ := State.remove_eq_ok_iff.mp hok
    exact ⟨fun _ _ hkept => (nomatch hkept), fun _ _ hkept => (nomatch hkept)⟩
  · intro name value state after hok
    obtain ⟨-, rfl⟩ := State.addSingleton_eq_ok_iff.mp hok
    exact ⟨fun _ _ h => h, fun h => h⟩

/-! ## Runs -/

/-- The operation registers something that changes what merging a definition from scratch would give,
and the merged definition stays kept. -/
def Operation.Strands (world : World) : Operation family → Prop
  | .register member registration =>
    ∃ (holder : family.Member) (name : String),
      (((Operation.register member registration).next world).state
        holder.registry.index).merged.contains name = true ∧
      ((Operation.register member registration).next world).scratch holder.chain name ≠
        world.scratch holder.chain name
  | .inquire _ _ _ => False

/-- One operation keeps what is kept good exactly if it strands no definition. -/
theorem Operation.keptGood_next_iff (hreachable : Reachable family world)
    (h : world.KeptGood family) (operation : Operation family) :
    (operation.next world).KeptGood family ↔ ¬ operation.Strands world := by
  have hundefined : world.AliasesUndefined := hreachable.aliasesUndefined
  have hundefined' : (operation.next world).AliasesUndefined :=
    (hreachable.next operation).aliasesUndefined
  cases operation with
  | inquire member depth inquiry =>
    refine iff_of_true ?_ fun hstrands => hstrands
    exact h.answer member depth inquiry
  | register member registration =>
    have hless := Registry.take_keepsLess member.registry registration world
    constructor
    · rintro hafter ⟨holder, name, hkept, hchanged⟩
      obtain ⟨definition, hfound⟩ := (Table.contains_iff_find? _ _).mp hkept
      refine hchanged ?_
      rw [hafter.scratch hundefined' hfound, h.scratch hundefined ((hless _).1 _ _ hfound)]
    · intro hstrands
      have hdefined := fun index => (hless index).2 (h.defined index)
      refine ⟨World.KeptFresh.of_scratch hundefined' hdefined ?_, hdefined⟩
      intro holder name definition hfound
      have hsame : ((Operation.register member registration).next world).scratch holder.chain name =
          world.scratch holder.chain name := by
        by_contra hchanged
        exact hstrands ⟨holder, name, Table.contains_of_find? hfound, hchanged⟩
      rw [hsame]
      exact h.scratch hundefined ((hless _).1 _ _ hfound)

/-- What is kept stays defined as long as merging is coherent. -/
theorem Operation.keptDefined_next (hreachable : Reachable family world)
    (hcoherent : world.MergesCoherent family)
    (hdefined : ∀ index name, (world.state index).merged.contains name = true →
      (world.state index).definitions.contains name = true) (operation : Operation family) :
    ∀ index name, ((operation.next world).state index).merged.contains name = true →
      ((operation.next world).state index).definitions.contains name = true := by
  cases operation with
  | register member registration =>
    exact fun index => (Registry.take_keepsLess member.registry registration world index).2
      (hdefined index)
  | inquire member depth inquiry =>
    have h : world.KeptGood family :=
      ⟨(World.mergesCoherent_iff hreachable.aliasesUndefined hdefined).mp hcoherent, hdefined⟩
    exact ((Operation.keptGood_next_iff hreachable h (.inquire member depth inquiry)).mpr id).defined

/-- **Merging is coherent all along a run exactly if no registration of the run strands a definition.** -/
theorem mergesCoherent_iff_not_strands (operations : List (Operation family)) :
    (∀ done, done <+: operations → (World.after done).MergesCoherent family) ↔
      ∀ done operation, done ++ [operation] <+: operations →
        ¬ operation.Strands (World.after done) := by
  have key := forall_prefix_iff (P := World.KeptGood family) World.keptGood_empty
    (fun world operation hreachable h => operation.keptGood_next_iff hreachable h) operations
  rw [← key]
  constructor
  · intro h done hdone
    have hdefined := forall_prefix_of (P := World.MergesCoherent family)
      (fun _ _ hkept => nomatch hkept)
      (fun world operation hreachable hcoherent _ hdefined =>
        operation.keptDefined_next hreachable hcoherent hdefined) h done hdone
    have hreachable : Reachable family (World.after done) := ⟨done, rfl⟩
    exact ⟨(World.mergesCoherent_iff hreachable.aliasesUndefined hdefined).mp (h done hdone), hdefined⟩
  · intro h done hdone
    have hreachable : Reachable family (World.after done) := ⟨done, rfl⟩
    have hgood := h done hdone
    exact (World.mergesCoherent_iff hreachable.aliasesUndefined hgood.defined).mpr hgood.fresh

/-! ### A stranded definition -/

/-- The parent of `c` is `p`, an alias for `a`. When `c` has been merged, `p` is bound to `b`. -/
def strandingOperations : List (Operation (Family.lone { index := 0 })) :=
  let member := Registry.lone { index := 0 }
  [.register member (.definition "a" { className := some "A" }),
    .register member (.definition "b" { className := some "B" }),
    .register member (.shorthand "a" "p"),
    .register member (.definition "c" { parent := some "p" }),
    .inquire member 0 (.merged "c"),
    .register member (.shorthand "b" "p")]

/-- Asked again, `c` still has the class of `a`, and merged from scratch it has the class of `b`. -/
theorem not_mergesCoherent_after_stranding :
    ¬ (World.after strandingOperations).MergesCoherent (Family.lone { index := 0 }) := by
  intro h
  have hclass := congrArg (fun merged => merged.toOption.bind DefinitionOf.className)
    (h (Registry.lone _) "c")
  have hkept : ((World.after strandingOperations).mergedBare (Registry.lone { index := 0 }).chain
      "c").toOption.bind DefinitionOf.className = some "A" := by decide +kernel
  have hscratch : ((World.after strandingOperations).scratch (Registry.lone { index := 0 }).chain
      "c").toOption.bind DefinitionOf.className = some "B" := by decide +kernel
  rw [hkept, hscratch] at hclass
  exact absurd hclass (by decide)

end Injector
