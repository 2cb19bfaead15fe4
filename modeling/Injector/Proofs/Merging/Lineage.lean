import Injector.Proofs.Merging.Descent

/-!
# Lineages

A definition is completed by its parent, which is completed by its own parent, and so on: in the same
container or in its ancestors. `World.Lineage` says what this comes to, in terms of definitions and
aliases alone. Nothing in it refers to what is kept of earlier merges, and notes are left out.

What is kept is sound if it is what the lineages say (`World.KeptFresh`). Then merging gives what the
lineage of a name says (`World.mergedIn_sound`), it gives something for every name that has a lineage
(`World.mergedIn_of_lineage`), and for the others it fails in the same way as if nothing was kept
(`World.mergedIn_eq_of_no_lineage`). Together: what is kept makes no difference but for notes
(`World.mergedIn_withoutMerged`).
-/

namespace Injector

/-! ## Lineages -/

namespace World

/--
What completing the definition of a name comes to.

The number counts the definitions of the same container that come after it on the way.
-/
inductive Lineage (world : World) : Chain → String → Nat → Definition → Prop
  | root {registry : Registry} {ancestors : Chain} {name : String} {definition : Definition}
      (hdefined : (world.state registry.index).definitions.find? name = some definition)
      (hparent : definition.parent = none) :
      Lineage world (registry :: ancestors) name 0 definition.bare
  | above {registry : Registry} {ancestors : Chain} {name : String} {further : Nat}
      {parent : Definition}
      (hundefined : (world.state registry.index).definitions.find? name = none)
      (h : Lineage world ancestors (world.canonicalIn ancestors name) further parent) :
      Lineage world (registry :: ancestors) name 0 parent
  | near {registry : Registry} {ancestors : Chain} {name parentName : String} {further : Nat}
      {definition parent : Definition}
      (hdefined : (world.state registry.index).definitions.find? name = some definition)
      (hparent : definition.parent = some parentName)
      (hother : (world.state registry.index).canonicalName parentName ≠ name)
      (h : Lineage world (registry :: ancestors)
        ((world.state registry.index).canonicalName parentName) further parent) :
      Lineage world (registry :: ancestors) name (further + 1) (parent.overlay definition.bare)
  | own {registry : Registry} {ancestors : Chain} {name parentName : String} {further : Nat}
      {definition parent : Definition}
      (hdefined : (world.state registry.index).definitions.find? name = some definition)
      (hparent : definition.parent = some parentName)
      (hsame : (world.state registry.index).canonicalName parentName = name)
      (h : Lineage world ancestors (world.canonicalIn ancestors name) further parent) :
      Lineage world (registry :: ancestors) name 0 (parent.overlay definition.bare)

/-- The world in which no merged definitions are kept. -/
def withoutMerged (world : World) : World :=
  { world with states := world.states.map fun state => { state with merged := .empty } }

theorem state_withoutMerged (world : World) (index : Nat) :
    world.withoutMerged.state index = { world.state index with merged := .empty } := by
  unfold state withoutMerged
  rw [List.getElem?_map]
  cases world.states[index]? with
  | none => rfl
  | some state => rfl

theorem sameSources_withoutMerged (world : World) :
    Statewise State.SameSources world world.withoutMerged := by
  intro index
  rw [state_withoutMerged]
  exact ⟨rfl, rfl⟩

theorem find?_merged_withoutMerged (world : World) (index : Nat) (name : String) :
    (world.withoutMerged.state index).merged.find? name = none := by
  rw [state_withoutMerged]
  rfl

/-- **A lineage is a descent where nothing is kept.** -/
theorem lineage_iff_descent {world : World} {chain : Chain} {name : String} {further : Nat}
    {definition : Definition} :
    world.Lineage chain name further definition ↔
      world.withoutMerged.Descent chain name further definition := by
  have hsources := sameSources_withoutMerged world
  constructor
  · intro h
    induction h with
    | root hdefined hparent =>
      exact .root (find?_merged_withoutMerged _ _ _) (by rw [(hsources _).1]; exact hdefined) hparent
    | above hundefined _ ih =>
      rw [← canonicalIn_congr hsources] at ih
      exact .above (find?_merged_withoutMerged _ _ _) (by rw [(hsources _).1]; exact hundefined) ih
    | near hdefined hparent hother _ ih =>
      rw [← canonicalName_congr (hsources _).2] at hother ih
      exact .near (find?_merged_withoutMerged _ _ _) (by rw [(hsources _).1]; exact hdefined) hparent
        hother ih
    | own hdefined hparent hsame _ ih =>
      rw [← canonicalName_congr (hsources _).2] at hsame
      rw [← canonicalIn_congr hsources] at ih
      exact .own (find?_merged_withoutMerged _ _ _) (by rw [(hsources _).1]; exact hdefined) hparent
        hsame ih
  · intro h
    induction h with
    | kept hkept =>
      -- there is none that a descent could end at
      rw [find?_merged_withoutMerged] at hkept
      cases hkept
    | root _ hdefined hparent => exact .root (by rw [← (hsources _).1]; exact hdefined) hparent
    | above _ hundefined _ ih =>
      rw [canonicalIn_congr hsources] at ih
      exact .above (by rw [← (hsources _).1]; exact hundefined) ih
    | near _ hdefined hparent hother _ ih =>
      rw [canonicalName_congr (hsources _).2] at hother ih
      exact .near (by rw [← (hsources _).1]; exact hdefined) hparent hother ih
    | own _ hdefined hparent hsame _ ih =>
      rw [canonicalName_congr (hsources _).2] at hsame
      rw [canonicalIn_congr hsources] at ih
      exact .own (by rw [← (hsources _).1]; exact hdefined) hparent hsame ih

/-- A name has one lineage at most. -/
theorem Lineage.unique {world : World} {chain : Chain} {name : String} {further further' : Nat}
    {definition definition' : Definition} (h : world.Lineage chain name further definition)
    (h' : world.Lineage chain name further' definition') :
    further = further' ∧ definition = definition' :=
  (lineage_iff_descent.mp h).unique (lineage_iff_descent.mp h')

/-! ### Lineages are a matter of definitions and aliases -/

theorem Lineage.transport {world after : World} (h : Statewise State.SameSources world after)
    {chain : Chain} {name : String} {further : Nat} {definition : Definition}
    (hlineage : world.Lineage chain name further definition) :
    after.Lineage chain name further definition := by
  induction hlineage with
  | root hdefined hparent => exact .root (by rw [(h _).1]; exact hdefined) hparent
  | above hundefined _ ih =>
    rw [← canonicalIn_congr h] at ih
    exact .above (by rw [(h _).1]; exact hundefined) ih
  | near hdefined hparent hother _ ih =>
    rw [← canonicalName_congr (h _).2] at hother ih
    exact .near (by rw [(h _).1]; exact hdefined) hparent hother ih
  | own hdefined hparent hsame _ ih =>
    rw [← canonicalName_congr (h _).2] at hsame
    rw [← canonicalIn_congr h] at ih
    exact .own (by rw [(h _).1]; exact hdefined) hparent hsame ih

end World

/-! ## What is kept -/

namespace World

variable {family : Family} {world : World}

/-- A container of the family defines the name, and the definition is what its lineage says. -/
def Backed (family : Family) (world : World) (index : Nat) (name : String)
    (definition : Definition) : Prop :=
  ∃ member : family.Member, member.registry.index = index ∧
    (world.state index).definitions.contains name = true ∧
    ∃ further, world.Lineage member.chain name further definition.bare

/-- Whatever is kept by a container of the family is what its lineage says. -/
def KeptFresh (family : Family) (world : World) : Prop :=
  ∀ (member : family.Member) (name : String) (definition : Definition),
    (world.state member.registry.index).merged.find? name = some definition →
      ∃ further, world.Lineage member.chain name further definition.bare

/-- A merged definition is what the lineage of the name says, and so is all that was merged for it. -/
structure Sound (family : Family) (world : World) (chain : Chain) (name : String)
    (merged : Merged) : Prop where
  lineage : ∃ further, world.Lineage chain name further merged.definition.bare
  backed : ∀ index name definition, (index, name, definition) ∈ merged.additions →
    world.Backed family index name definition

/-! ### What merging gives -/

/-- What the world without anything kept says is backed. -/
theorem Backed.of_derived {index : Nat} {name : String} {definition : Definition}
    (h : Derived family world.withoutMerged index name definition) :
    world.Backed family index name definition := by
  obtain ⟨member, hindex, hdefined, further, hdescent⟩ := h
  rw [(sameSources_withoutMerged world index).1] at hdefined
  exact ⟨member, hindex, hdefined, further, lineage_iff_descent.mpr hdescent⟩

/-- If what is kept is what the lineages say, it rests on definitions and aliases alone. -/
theorem KeptFresh.restsOn (h : world.KeptFresh family) :
    RestsOn family world.withoutMerged world where
  sources := State.sameSources_symm (sameSources_withoutMerged world)
  kept index name definition hkept := by
    rw [find?_merged_withoutMerged] at hkept
    cases hkept
  descends member name definition hkept := by
    obtain ⟨further, hlineage⟩ := h member name definition hkept
    exact ⟨further, lineage_iff_descent.mp hlineage⟩

/-- **Merging gives what the lineage of the name says, if what is kept does.** -/
theorem mergedIn_sound (hkept : world.KeptFresh family) (chain : Chain) (hf : family.Has chain)
    (name : String) (merged : Merged) (h : world.mergedIn chain name = .ok merged) :
    world.Sound family chain (world.canonicalIn chain name) merged := by
  obtain ⟨⟨further, hdescent⟩, hderived⟩ := hkept.restsOn.mergedIn_descends chain hf name merged h
  rw [canonicalIn_congr (sameSources_withoutMerged world)] at hdescent
  exact ⟨⟨further, lineage_iff_descent.mpr hdescent⟩,
    fun index name definition hmem => .of_derived (hderived index name definition hmem)⟩

/-! ### What has a lineage is merged -/

/-- **A name that has a lineage is merged.** -/
theorem mergedIn_of_lineage (chain : Chain) (name : String) (further : Nat) (definition : Definition)
    (h : world.Lineage chain (world.canonicalIn chain name) further definition) :
    ∃ merged, world.mergedIn chain name = .ok merged := by
  have hsources := sameSources_withoutMerged world
  refine mergedIn_of_descent (State.sameSources_symm hsources)
    (fun index name _ => find?_merged_withoutMerged world index name) chain name further definition ?_
  rw [canonicalIn_congr hsources]
  exact lineage_iff_descent.mp h

/-! ### What has no lineage is not -/

theorem keptFresh_withoutMerged (world : World) : world.withoutMerged.KeptFresh family := by
  intro member name definition hkept
  rw [find?_merged_withoutMerged] at hkept
  cases hkept

/-- Completing a definition depends on its parent alone. -/
theorem complete_congr {state : State} {name : String} {definition : Definition}
    {near near' above above' : String → Except Failure Merged}
    (h : ∀ parentName, definition.parent = some parentName →
      (if state.canonicalName parentName = name then above (state.canonicalName parentName)
        else near (state.canonicalName parentName)) =
      if state.canonicalName parentName = name then above' (state.canonicalName parentName)
        else near' (state.canonicalName parentName)) :
    state.complete name definition none near above =
      State.complete { state with merged := .empty } name definition none near' above' := by
  unfold State.complete
  cases hparent : definition.parent with
  | none => rfl
  | some parentName =>
    dsimp only
    rw [h parentName hparent]
    rfl

section

variable {registry : Registry} {ancestors : Chain} {above above' : String → Except Failure Merged}
  (hf : family.Has (registry :: ancestors)) (hkept : world.KeptFresh family)
  (habove : ∀ name,
    (∀ further definition,
      ¬ world.Lineage ancestors (world.canonicalIn ancestors name) further definition) →
    above name = above' name)

include hf hkept habove

/-- A name without a lineage comes to none that is kept. -/
theorem mergedFrom_eq_of_no_lineage (unentered : List String) (name : String)
    (h : ∀ further definition, ¬ world.Lineage (registry :: ancestors) name further definition) :
    (world.state registry.index).mergedFrom registry.index above unentered name =
      State.mergedFrom { world.state registry.index with merged := .empty } registry.index above'
        unentered name := by
  have hnone : (world.state registry.index).merged.find? name = none := by
    rw [Option.eq_none_iff_forall_ne_some]
    intro kept hfound
    obtain ⟨further, hlineage⟩ := hkept ⟨registry, ancestors, hf⟩ name kept hfound
    exact h further _ hlineage
  rw [State.mergedFrom, State.mergedFrom, hnone]
  dsimp only
  rw [show ((Table.empty : Table Definition).find? name) = none from rfl]
  cases hdefined : (world.state registry.index).definitions.find? name with
  | none =>
    exact habove name fun further definition hlineage => h 0 definition (.above hdefined hlineage)
  | some definition =>
    dsimp only
    by_cases hmem : name ∈ unentered
    · rw [dif_pos hmem, dif_pos hmem]
      rw [complete_congr fun parentName hparent => ?_]
      split
      · next hsame =>
        refine habove _ fun further parent hlineage => ?_
        rw [hsame] at hlineage
        exact h 0 _ (.own hdefined hparent hsame hlineage)
      · next hother =>
        exact mergedFrom_eq_of_no_lineage _ _ fun further parent hlineage =>
          h (further + 1) _ (.near hdefined hparent hother hlineage)
    · rw [dif_neg hmem, dif_neg hmem]
termination_by unentered.length
decreasing_by exact State.length_erase_lt hmem

end

/-- **A name that has no lineage is not merged, in the same way as if nothing was kept.** -/
theorem mergedIn_eq_of_no_lineage (hkept : world.KeptFresh family) :
    ∀ chain, family.Has chain → ∀ name,
      (∀ further definition,
        ¬ world.Lineage chain (world.canonicalIn chain name) further definition) →
      world.mergedIn chain name = world.withoutMerged.mergedIn chain name
  | [], _, _, _ => rfl
  | registry :: ancestors, hf, name, h => by
    rw [mergedIn, mergedIn, state_withoutMerged]
    exact mergedFrom_eq_of_no_lineage hf hkept
      (mergedIn_eq_of_no_lineage hkept ancestors (family.ancestors_has hf)) _ _ h

/-! ### What is kept makes no difference -/

/-- **If what is kept is what the lineages say, merging gives the same, but for notes, as if nothing was
kept.** -/
theorem mergedIn_withoutMerged (hkept : world.KeptFresh family) {chain : Chain}
    (hf : family.Has chain) (name : String) :
    (world.mergedIn chain name).map (fun merged => merged.definition.bare) =
      (world.withoutMerged.mergedIn chain name).map fun merged => merged.definition.bare := by
  have hsources := sameSources_withoutMerged world
  by_cases h : ∃ further definition,
      world.Lineage chain (world.canonicalIn chain name) further definition
  · obtain ⟨further, definition, hlineage⟩ := h
    have hlineage' : world.withoutMerged.Lineage chain
        (world.withoutMerged.canonicalIn chain name) further definition := by
      rw [canonicalIn_congr hsources]
      exact hlineage.transport hsources
    obtain ⟨merged, hmerged⟩ := mergedIn_of_lineage chain name further definition hlineage
    obtain ⟨merged', hmerged'⟩ := mergedIn_of_lineage chain name further definition hlineage'
    -- both are what the lineage says, and there is only one
    obtain ⟨_, hsound⟩ := (mergedIn_sound hkept chain hf name merged hmerged).lineage
    obtain ⟨_, hsound'⟩ :=
      (mergedIn_sound (keptFresh_withoutMerged world) chain hf name merged' hmerged').lineage
    rw [hmerged, hmerged', Except.map, Except.map, (hsound.unique hlineage).2,
      (hsound'.unique hlineage').2]
  · have hnone : ∀ further definition,
        ¬ world.Lineage chain (world.canonicalIn chain name) further definition :=
      fun further definition hlineage => h ⟨further, definition, hlineage⟩
    rw [mergedIn_eq_of_no_lineage hkept chain hf name hnone]

end World

end Injector
