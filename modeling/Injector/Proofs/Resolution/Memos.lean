import Injector.Proofs.Creation.InitializationOrder
import Injector.Proofs.Merging.Cache
import Injector.Proofs.Resolution.Lessons

/-!
# Types that are noted in merged definitions

Definitions are registered without notes (`DefinitionOf.Fresh`), so whatever is noted in a merged
definition was learnt when some bean was created. It need not be a bean of the same container: a
definition that is completed takes over what was learnt about its parent. All that can be said of a type
that is noted is that some container of the chain finds it for the type name at that place
(`DefinitionOf.Known`).

Merging keeps to that (`World.MemosKnown.mergedIn`). So does learning: a bean that is defined is created
by what is kept of its name, but for notes, so that a lesson concerns the type name for which it was found
(`Remembers.learn`). Beans that are nested are created by definitions that nobody keeps. So it is true
after any run (`World.memosKnown_after`).
-/

namespace Injector

variable {family : Family}

/-! ## Definitions whose notes are right -/

namespace DefinitionOf

/-- Nothing is noted in the definition, every property is set once, and the same goes for what is
nested in it. -/
inductive Fresh : Definition → Prop
  | intro {definition : Definition} (wellFormed : definition.WellFormed)
      (unnoted : definition.bare = definition)
      (nested : ∀ inner ∈ definition.nested, Fresh inner.2) : Fresh definition

/-- Every type that is noted in the definition is one that a container of the chain finds. What is
nested in it is as it was written. -/
structure Known (chain : Chain) (definition : Definition) : Prop where
  wellFormed : definition.WellFormed
  nested : ∀ inner ∈ definition.nested, inner.2.Fresh
  found : ∀ place part type, definition.part? place = some part → part.memo? = some type →
    ∃ registry ∈ chain, part.Finds registry.classes type

theorem Fresh.known {definition : Definition} (h : definition.Fresh) (chain : Chain) :
    definition.Known chain := by
  obtain ⟨hwellFormed, hunnoted, hnested⟩ := h
  refine ⟨hwellFormed, hnested, fun place part type hpart hmemo => ?_⟩
  rw [← hunnoted, part?_bare] at hpart
  obtain ⟨written, -, rfl⟩ := Option.map_eq_some_iff.mp hpart
  rw [RawValue.memo?_bare] at hmemo
  cases hmemo

namespace Known

variable {chain : Chain} {definition : Definition}

theorem mono {further : Chain} (h : definition.Known chain) (hsubset : chain ⊆ further) :
    definition.Known further where
  wellFormed := h.wellFormed
  nested := h.nested
  found place part type hpart hmemo := by
    obtain ⟨registry, hmem, hfinds⟩ := h.found place part type hpart hmemo
    exact ⟨registry, hsubset hmem, hfinds⟩

theorem overlay {child : Definition} (h : definition.Known chain) (hchild : child.Known chain) :
    (definition.overlay child).Known chain where
  wellFormed := h.wellFormed.overlay child
  nested inner hinner := (nested_overlay definition child hinner).elim (h.nested inner) (hchild.nested inner)
  found place part type hpart hmemo :=
    (part?_overlay hchild.wellFormed hpart).elim (fun hparent => h.found place part type hparent hmemo)
      fun hown => hchild.found place part type hown hmemo

theorem within (h : definition.Known chain) (containing : Option Definition) :
    (definition.within containing).Known chain where
  wellFormed := by
    obtain ⟨declaredScope, heq⟩ := definition.within_eq containing
    rw [heq]
    exact h.wellFormed
  nested := by
    obtain ⟨declaredScope, heq⟩ := definition.within_eq containing
    rw [heq]
    exact h.nested
  found place part type hpart hmemo := by
    refine h.found place part type ?_ hmemo
    obtain ⟨declaredScope, heq⟩ := definition.within_eq containing
    rw [heq] at hpart
    cases place with
    | nil => cases hpart
    | cons step place => cases step <;> exact hpart

/-- A type may be learnt for a part that has the type name for which it is found. -/
theorem learn (h : definition.Known chain) {lesson : Lesson} {place : List Step}
    (hright : ∀ type, lesson = .type type → ∀ part, definition.part? place = some part →
      ∃ registry ∈ chain, part.Finds registry.classes type) :
    (definition.learn lesson place).Known chain where
  wellFormed := h.wellFormed.learn lesson place
  nested inner hinner := by
    rw [← nested_bare, bare_learn, nested_bare] at hinner
    exact h.nested inner hinner
  found place' part type hpart hmemo := by
    obtain ⟨written, hwritten, hbare⟩ := part_of_bare (bare_learn lesson place definition) hpart
    rcases memo_of_learn hpart hmemo with ⟨before, hbefore, hnoted⟩ | ⟨rfl, rfl⟩
    · cases hwritten.symm.trans hbefore
      obtain ⟨registry, hmem, hfinds⟩ := h.found place' written type hwritten hnoted
      exact ⟨registry, hmem, RawValue.finds_of_bare hbare hfinds⟩
    · obtain ⟨registry, hmem, hfinds⟩ := hright type rfl written hwritten
      exact ⟨registry, hmem, RawValue.finds_of_bare hbare hfinds⟩

end Known

end DefinitionOf

/-! ## Worlds whose notes are right -/

/-- Nothing is noted in the definitions that are registered. -/
def State.AsWritten (state : State) : Prop :=
  ∀ name definition, state.definitions.find? name = some definition → definition.Fresh

/-- Nothing is noted in the definitions that are registered, and every type that is noted in a merged
definition that is kept is one that the container or an ancestor finds. -/
structure World.MemosKnown (family : Family) (world : World) : Prop where
  fresh : ∀ index, (world.state index).AsWritten
  kept : ∀ (member : family.Member) (name : String) (definition : Definition),
    (world.state member.registry.index).merged.find? name = some definition →
      definition.Known member.chain

/-- All that was merged to be kept has right notes. -/
def Merged.AdditionsKnown (family : Family) (merged : Merged) : Prop :=
  ∀ index name definition, (index, name, definition) ∈ merged.additions →
    ∀ member : family.Member, member.registry.index = index → definition.Known member.chain

namespace World.MemosKnown

/-! ### Merging -/

section

variable {chain : Chain} {near above : String → Except Failure Merged}
  (hnear : ∀ name merged, near name = .ok merged →
    merged.definition.Known chain ∧ merged.AdditionsKnown family)
  (habove : ∀ name merged, above name = .ok merged →
    merged.definition.Known chain ∧ merged.AdditionsKnown family)

include hnear habove

/-- Completing a definition makes right notes of right notes. -/
theorem complete {state : State} {name : String} {definition : Definition}
    {containing : Option Definition} {merged : Merged}
    (h : state.complete name definition containing near above = .ok merged) :
    (definition.Known chain → merged.definition.Known chain) ∧ merged.AdditionsKnown family := by
  rcases State.complete_eq_ok h with ⟨-, rfl⟩ | ⟨parentName, parent, -, hfound, rfl⟩
  · exact ⟨fun hknown => hknown.within containing, fun _ _ _ hmem => nomatch hmem⟩
  · have hparent : parent.definition.Known chain ∧ parent.AdditionsKnown family := by
      split at hfound
      · exact habove _ parent hfound
      · exact hnear _ parent hfound
    exact ⟨fun hknown => (hparent.1.overlay hknown).within containing, hparent.2⟩

end

variable {world : World} (h : world.MemosKnown family)

include h

theorem mergedFrom {registry : Registry} {ancestors : Chain} {above : String → Except Failure Merged}
    (hf : family.Has (registry :: ancestors))
    (habove : ∀ name merged, above name = .ok merged →
      merged.definition.Known (registry :: ancestors) ∧ merged.AdditionsKnown family)
    (unentered : List String) (name : String) (merged : Merged)
    (hok : (world.state registry.index).mergedFrom registry.index above unentered name = .ok merged) :
    merged.definition.Known (registry :: ancestors) ∧ merged.AdditionsKnown family := by
  rcases State.mergedFrom_eq_ok hok with ⟨kept, hkept, rfl⟩ | ⟨-, ⟨-, hfound⟩ |
    ⟨definition, completed, hdefined, hmem, hcompleted, rfl⟩⟩
  · exact ⟨h.kept ⟨registry, ancestors, hf⟩ name kept hkept, fun _ _ _ hmem => nomatch hmem⟩
  · exact habove name merged hfound
  · obtain ⟨hknown, hadditions⟩ :=
      complete (mergedFrom hf habove (unentered.erase name)) habove hcompleted
    have hknown := hknown ((h.fresh _ name definition hdefined).known _)
    refine ⟨hknown, fun index' name' definition' hadded member hindex => ?_⟩
    rcases List.mem_append.mp hadded with hearlier | hlast
    · exact hadditions index' name' definition' hearlier member hindex
    · cases List.mem_singleton.mp hlast
      obtain ⟨hregistry, hancestors⟩ := family.index_unique member.has hf hindex
      unfold Family.Member.chain
      rw [hregistry, hancestors]
      exact hknown
termination_by unentered.length
decreasing_by exact State.length_erase_lt hmem

/-- **What is merged has right notes.** -/
theorem mergedIn : ∀ chain, family.Has chain → ∀ name merged, world.mergedIn chain name = .ok merged →
    merged.definition.Known chain ∧ merged.AdditionsKnown family
  | [], _, _, _, hok => by cases hok
  | registry :: ancestors, hf, _, merged, hok => by
    refine mergedFrom h hf (fun name merged hfound => ?_) _ _ merged hok
    obtain ⟨hknown, hadditions⟩ := mergedIn ancestors (family.ancestors_has hf) name merged hfound
    exact ⟨hknown.mono (List.subset_cons_self _ _), hadditions⟩

/-- **So has what is nested and merged, if it has right notes itself.** -/
theorem mergedNested {chain : Chain} (hf : family.Has chain) {name : String} {definition : Definition}
    {containing : Option Definition} {merged : Merged}
    (hok : world.mergedNested chain name definition containing = .ok merged) :
    (definition.Known chain → merged.definition.Known chain) ∧ merged.AdditionsKnown family := by
  cases chain with
  | nil => cases hok
  | cons registry ancestors =>
    have habove : ∀ name merged, world.mergedIn ancestors name = .ok merged →
        merged.definition.Known (registry :: ancestors) ∧ merged.AdditionsKnown family := by
      intro name merged hfound
      obtain ⟨hknown, hadditions⟩ := mergedIn h ancestors (family.ancestors_has hf) name merged hfound
      exact ⟨hknown.mono (List.subset_cons_self _ _), hadditions⟩
    exact complete (mergedFrom h hf habove _) habove hok

/-! ### Changes -/

/-- Nothing changes about that if states are changed in other respects. -/
theorem withState {index : Nat} {state : State}
    (hdefinitions : state.definitions = (world.state index).definitions)
    (hmerged : state.merged = (world.state index).merged) :
    (world.withState index state).MemosKnown family where
  fresh other name definition hfound := by
    rw [World.state_withState] at hfound
    split at hfound
    · rw [hdefinitions] at hfound
      exact h.fresh index name definition hfound
    · exact h.fresh other name definition hfound
  kept member name definition hfound := by
    refine h.kept member name definition ?_
    rw [World.state_withState] at hfound
    split at hfound
    · next he =>
      rw [he, ← hmerged]
      exact hfound
    · exact hfound

theorem of_states {after : World} (hstates : after.states = world.states) :
    after.MemosKnown family := by
  have hstate (index : Nat) : after.state index = world.state index := by
    unfold World.state
    rw [hstates]
  refine ⟨fun index name definition hfound => ?_, fun member name definition hfound => ?_⟩
  · rw [hstate] at hfound
    exact h.fresh index name definition hfound
  · rw [hstate] at hfound
    exact h.kept member name definition hfound

/-- What has right notes may be kept. -/
theorem keepMerged {additions : List (Nat × String × Definition)}
    (hadditions : ∀ index name definition, (index, name, definition) ∈ additions →
      ∀ member : family.Member, member.registry.index = index → definition.Known member.chain) :
    (world.keepMerged additions).MemosKnown family := by
  induction additions generalizing world with
  | nil => exact h
  | cons addition rest ih =>
    obtain ⟨index, name, definition⟩ := addition
    refine ih ⟨fun other wanted found hfound => ?_, fun member wanted found hfound => ?_⟩
      fun other wanted added hmem => hadditions other wanted added (List.mem_cons_of_mem _ hmem)
    · rw [World.state_withState] at hfound
      split at hfound
      · exact h.fresh index wanted found hfound
      · exact h.fresh other wanted found hfound
    · rw [World.find?_keep] at hfound
      split at hfound
      · next hboth =>
        cases hbefore : (world.state member.registry.index).merged.find? wanted with
        | some before =>
          -- what is kept already is not replaced
          rw [hbefore] at hfound
          cases hfound
          exact h.kept member wanted before hbefore
        | none =>
          rw [hbefore] at hfound
          cases hfound
          exact hadditions index name definition List.mem_cons_self member hboth.1
      · exact h.kept member wanted found hfound

/-- What is right may be learnt about what is kept. -/
theorem learn {owner : Owner} {place : List Step} {lesson : Lesson}
    (hright : ∀ (member : family.Member) (name : String) (definition : Definition),
      owner = .merged member.registry.index name →
      (world.state member.registry.index).merged.find? name = some definition →
      ∀ type, lesson = .type type → ∀ part, definition.part? place = some part →
        ∃ registry ∈ member.chain, part.Finds registry.classes type) :
    (world.learn owner place lesson).MemosKnown family := by
  cases owner with
  | nothing => exact h
  | bench => exact h.of_states rfl
  | merged index name =>
    refine ⟨fun other wanted found hfound => ?_, fun member wanted found hfound => ?_⟩
    · rw [((State.stateRelation_sameSources.statewise_learn world _ place lesson) other).1] at hfound
      exact h.fresh other wanted found hfound
    · rw [World.find?_learn] at hfound
      split at hfound
      · next hboth =>
        obtain ⟨hindex, rfl⟩ := hboth
        obtain ⟨before, hbefore, rfl⟩ := Option.map_eq_some_iff.mp hfound
        exact (h.kept member wanted before hbefore).learn
          (hright member wanted before (by rw [hindex]) hbefore)
      · exact h.kept member wanted found hfound

end World.MemosKnown

/-! ## Requests -/

/-- What was done since the start rests on what the start says, and the types that are noted are right. -/
structure Remembers (family : Family) (start world : World) : Prop where
  grows : start.Grows world
  keeping : World.Keeping family start world
  memos : world.MemosKnown family

section

variable {start : World}

theorem Remembers.refl (h : start.MemosKnown family) : Remembers family start start :=
  ⟨.refl start, .refl family start, h⟩

/-- Whatever notes right types alone is remembered. -/
theorem keeps_remembers {α : Type} {work : Work α} (hgrows : work.Keeps World.Grows)
    (hkeeping : work.Keeps fun world after =>
      World.Keeping family start world → World.Keeping family start after)
    (hmemos : work.Keeps fun world after => world.MemosKnown family → after.MemosKnown family) :
    work.Keeps fun world after => Remembers family start world → Remembers family start after :=
  fun world h => ⟨h.grows.trans (hgrows world), hkeeping world h.keeping, hmemos world h.memos⟩

/-- What is done for every bean, apart from learning, is remembered. -/
theorem minding_remembers (family : Family) (start : World) :
    Minding family fun _ work =>
      work.Keeps fun world after => Remembers family start world → Remembers family start after := by
  have hgrows := (World.container_grows family).toMinding
  have hkeeping := (World.container_keeping family start).toMinding
  exact
    { toComposable := (Work.compositional_preserves _).toComposable
      merged := fun hf name => keeps_remembers (hgrows.merged hf name) (hkeeping.merged hf name)
        (Work.keeps_takeMerged (fun _ h => h) fun world merged hmerged h =>
          h.keepMerged (h.mergedIn _ hf name merged hmerged).2)
      mergedNested := fun hf name definition containing =>
        keeps_remembers (hgrows.mergedNested hf name definition containing)
          (hkeeping.mergedNested hf name definition containing)
          (Work.keeps_takeMerged (fun _ h => h) fun world merged hmerged h =>
            h.keepMerged (h.mergedNested hf hmerged).2)
      product := fun hf label maker name processed =>
        keeps_remembers (hgrows.product hf label maker name processed)
          (hkeeping.product hf label maker name processed)
          (Work.keeps_productOf (fun _ h => h) (fun _ _ _ hab hbc h => hbc (hab h))
            (Work.keeps_newProduct (fun _ _ _ hab hbc h => hbc (hab h))
              (fun _ _ _ h => h.of_states rfl) fun _ _ h => h.of_states rfl)
            (fun _ _ h => h.withState rfl rfl) fun _ _ _ h => h.of_states rfl) }

/-- A change of one state that leaves definitions alone, registered and merged, is remembered. -/
theorem Remembers.withState {world : World} (h : Remembers family start world) {index : Nat}
    {state : State} (hgrown : (world.state index).Grown state)
    (hmerged : state.merged = (world.state index).merged) :
    Remembers family start (world.withState index state) where
  grows := h.grows.trans
    ⟨State.stateRelation_grown.statewise_withState hgrown, List.suffix_refl _⟩
  keeping := h.keeping.withState hgrown.sources hmerged
  memos := h.memos.withState hgrown.sources.1 hmerged

theorem Remembers.noting {world : World} (h : Remembers family start world) (event : Event) :
    Remembers family start (world.noting event) where
  grows := h.grows.trans ⟨Statewise.refl .refl _, List.suffix_cons _ _⟩
  keeping := h.keeping.of_states rfl
  memos := h.memos.of_states rfl

/-- What a type name stands for may be learnt where it stands, for a bean that is created by what the
start says: what is kept has the same type name there. -/
theorem Remembers.learn (hundefined : start.AliasesUndefined) {member : family.Member} {name : String}
    {merged : Definition}
    (hplanned : (⟨member, name, .merged member.registry.index name, merged⟩ :
      Creation family).Planned start)
    {world : World} (h : Remembers family start world) {place : List Step} {part : RawValue}
    {type : ValueType} (hpart : merged.part? place = some part)
    (hfinds : part.Finds member.registry.classes type) :
    Remembers family start (world.learn (.merged member.registry.index name) place (.type type)) where
  grows := h.grows.trans ((World.container_grows family).learn _ place _ world)
  keeping := h.keeping.learn _ place _
  memos := by
    cases hplanned with
    | bean hdefined hmerged =>
      refine h.memos.learn fun member' name' kept howner hkept type' hlesson part' hpart' => ?_
      obtain ⟨hindex, rfl⟩ := Owner.merged.inj howner
      cases hlesson
      obtain ⟨hregistry, hancestors⟩ := family.index_unique member.has member'.has hindex
      have hchain : member'.chain = member.chain := by
        unfold Family.Member.chain
        rw [hregistry, hancestors]
      have hbare : kept.bare = merged.bare := by
        have hcanonical : start.canonicalIn member'.chain name = name := by
          rw [hchain]
          exact hundefined.canonicalName hdefined
        have hfound := h.keeping.toRestsOn.bareOf_of_kept hcanonical hkept
        rw [hchain, hmerged] at hfound
        exact (Option.some.inj hfound).symm
      obtain ⟨written, hwritten, hsame⟩ := DefinitionOf.part_of_bare hbare hpart'
      cases hpart.symm.trans hwritten
      rw [hchain]
      exact ⟨member.registry, List.mem_cons_self, RawValue.finds_of_bare hsame hfinds⟩

variable {handler : Handler}
  (hh : handler.Within family fun _ work =>
    work.Keeps fun world after => Remembers family start world → Remembers family start after)
  (member : family.Member) (depth : Nat)

include hh

/-- All that a container provides is remembered. -/
theorem provider_remembers : (member.registry.provider member.ancestors handler depth).Within
    fun _ work =>
      work.Keeps fun world after => Remembers family start world → Remembers family start after where
  toOffers := (minding_remembers family start).provider_offers hh.1 member.has depth
  noteDependent name dependent :=
    keeps_remembers ((World.container_grows family).noteDependent member.has name dependent)
      ((World.container_keeping family start).noteDependent member.has name dependent)
      (Work.keeps_noteDependent fun _ _ _ _ h => h.withState rfl rfl)
  noteContained inner outer :=
    keeps_remembers ((World.container_grows family).noteContained member.has inner outer)
      ((World.container_keeping family start).noteContained member.has inner outer)
      (Work.keeps_noteContained fun _ _ _ _ h => h.withState rfl rfl)
  freeName name := by
    have hK := minding_remembers family start
    exact hK.bind (hK.state _) fun _ => hK.bind (fun _ h => h.noting _) fun _ => hK.pure _
  merged name definition containing :=
    (minding_remembers family start).mergedNested member.has name definition (some containing)
  create name definition := hh.2 _ name definition member.has
  evaluate _ := (Work.compositional_preserves _).ofStop _

omit hh in
/-- Creating a bean is remembered if having its inputs is. -/
theorem instantiate_remembers {name : String} {owner : Owner} {definition : Definition}
    (hinputs : (member.registry.resolution member.ancestors handler depth name owner
      definition).inputs.Keeps
        fun world after => Remembers family start world → Remembers family start after) :
    (instantiate handler depth member.registry member.ancestors name owner definition).Keeps
      fun world after => Remembers family start world → Remembers family start after := by
  have hK := minding_remembers family start
  rcases instantiate_cases handler depth member.registry member.ancestors name owner definition with
    ⟨failure, heq⟩ | ⟨className, constructor, reword, -, -, heq⟩
  · rw [heq]
    exact hK.fail failure
  · rw [heq]
    refine hK.bind hinputs fun inputs => hK.explain _ (keeps_remembers
      ((World.container_grows family).construct member.has owner className constructor inputs)
      ((World.container_keeping family start).construct member.has owner className constructor inputs) ?_)
    exact Work.keeps_construct fun _ _ _ h => h.of_states rfl

/-- Creating a bean by whatever definition that nobody keeps is remembered: nothing is learnt. -/
theorem instantiate_nothing_remembers (name : String) (definition : Definition) :
    (instantiate handler depth member.registry member.ancestors name .nothing definition).Keeps
      fun world after => Remembers family start world → Remembers family start after := by
  have hK := minding_remembers family start
  have hp := provider_remembers hh member depth
  exact instantiate_remembers member depth (Resolution.inputs_mem hK.toComposable (fun _ _ _ h => h)
    hp.toGrants (fun text _ => hp.evaluate text)
    fun inner _ path => Resolution.resolveNested_mem hK.toComposable hp path inner.1 inner.2)

/-- **Creating a bean that is defined notes right types.** -/
theorem instantiate_merged_remembers (hundefined : start.AliasesUndefined)
    (hstart : start.MemosKnown family) {name : String} {merged : Definition}
    (hplanned : (⟨member, name, .merged member.registry.index name, merged⟩ :
      Creation family).Planned start) :
    (instantiate handler depth member.registry member.ancestors name
      (.merged member.registry.index name) merged).Keeps
      fun world after => Remembers family start world → Remembers family start after := by
  have hK := minding_remembers family start
  have hwellFormed : merged.WellFormed := by
    cases hplanned with
    | bean hdefined hmerged =>
      obtain ⟨found, hfound, hbare⟩ := World.exists_of_bareOf hmerged
      have hknown := (hstart.mergedIn _ member.chain_has name found hfound).1
      rw [← DefinitionOf.wellFormed_bare, ← hbare, DefinitionOf.wellFormed_bare]
      exact hknown.wellFormed
  refine instantiate_remembers member depth (Resolution.inputs_of_teaching hK.toComposable
    (provider_remembers hh member depth) (fun _ => rfl) (fun steps => ?_)
    (fun place part type hpart hfinds world h => h.learn hundefined hplanned hpart hfinds) hwellFormed)
  refine keeps_remembers ((World.container_grows family).learn _ steps _)
    ((World.container_keeping family start).learn _ steps _) fun world h => ?_
  show (world.learn (.merged member.registry.index name) steps .dynamic).MemosKnown family
  refine h.learn fun _ _ _ _ _ type hlesson => ?_
  cases hlesson

/-- Having the prerequisites and the instance of a bean that is defined is remembered. -/
theorem had_remembers (hundefined : start.AliasesUndefined) (hstart : start.MemosKnown family)
    {name : String} {merged : Definition}
    (hplanned : (⟨member, name, .merged member.registry.index name, merged⟩ :
      Creation family).Planned start) :
    (realizePrerequisites handler member.registry member.ancestors name merged >>= fun _ =>
      instanceOf handler depth member.registry member.ancestors name merged).Keeps
      fun world after => Remembers family start world → Remembers family start after := by
  have hK := minding_remembers family start
  have hp := provider_remembers hh member depth
  refine hK.bind (hK.forM fun prerequisite _ =>
    hK.realizePrerequisite hh.1 member.has hp.noteDependent name merged prerequisite) fun _ => ?_
  exact Work.keeps_instanceOf (fun _ h => h) (fun _ _ _ hab hbc h => hbc (hab h))
    (instantiate_merged_remembers hh member depth hundefined hstart hplanned)
    (fun _ names h => h.withState (State.stateRelation_grown.inCreation _ names) rfl)
    fun _ made h => h.withState (State.stateRelation_grown.keepSingleton _ name made) rfl

end

/-- **Whatever is requested, right types are noted.** -/
theorem serve_remembers {start : World} (hundefined : start.AliasesUndefined)
    (hstart : start.MemosKnown family) : ∀ depth : Nat, (serve depth).Within family fun _ work =>
      work.Keeps fun world after => Remembers family start world → Remembers family start after
  | 0 => ⟨fun _ _ _ _ h => h, fun _ _ _ _ _ h => h⟩
  | depth + 1 => by
    have hK := minding_remembers family start
    have hh := serve_remembers hundefined hstart depth
    refine ⟨fun chain name hf => ?_, fun chain name definition hf => ?_⟩
    · cases chain with
      | nil => exact hK.fail _
      | cons registry ancestors =>
        refine hK.bind (fetchBean_preserves (fun _ h => ⟨h.grows, h.keeping⟩) hK hh.1
          ⟨registry, ancestors, hf⟩ (fun name merged hplanned => ?_) name) fun value =>
          hK.bind (fun _ h => h.noting _) fun _ => hK.pure _
        exact had_remembers hh _ depth hundefined hstart hplanned
    · cases chain with
      | nil => exact hK.fail _
      | cons registry ancestors =>
        exact instantiate_nothing_remembers hh ⟨registry, ancestors, hf⟩ depth name definition

/-! ## Runs -/

/-- Nothing is noted in the definition that is registered, if one is. -/
def Registration.Fresh : Registration → Prop
  | .definition _ written | .holder _ _ written => written.Fresh
  | _ => True

/-- Nothing is noted in the definition that is registered, if one is; anything may be asked. -/
def Operation.Fresh : Operation family → Prop
  | .register _ registration => registration.Fresh
  | .inquire .. => True

/-- Registering what was written leaves all definitions as they were written. -/
theorem Registry.take_asWritten (registry : Registry) {registration : Registration}
    (hfresh : registration.Fresh) :
    (registry.take registration).Keeps fun world after =>
      (∀ index, (world.state index).AsWritten) → ∀ index, (after.state index).AsWritten := by
  have hK := Work.compositional_preserves fun world => ∀ index, (world.state index).AsWritten
  have hregister {change : State → Except Failure State}
      (hchange : ∀ state after, change state = .ok after → ∀ name definition,
        after.definitions.find? name = some definition →
          definition.Fresh ∨ state.definitions.find? name = some definition) :
      (Work.register registry change).Keeps fun world after =>
        (∀ index, (world.state index).AsWritten) → ∀ index, (after.state index).AsWritten :=
    Work.keeps_register (fun _ h => h) fun world after hok h => World.forall_state_withState h
      fun name definition hfound => (hchange _ after hok name definition hfound).elim id (h _ name definition)
  have hdefine {name : String} {definition : Definition} (hwritten : definition.Fresh) :=
    hregister fun state after (hok : State.define registry.settings name definition state = .ok after) =>
      fun name' definition' hfound => by
        obtain ⟨-, -, rfl⟩ := State.define_eq_ok_iff.mp hok
        have hfound : (state.definitions.insert name definition).find? name' = some definition' := hfound
        rw [Table.find?_insert] at hfound
        split at hfound
        · cases hfound
          exact .inl hwritten
        · exact .inr hfound
  have haddAlias (name shorthand : String) :=
    hregister fun state after
        (hok : State.addAlias registry.settings name shorthand state = .ok after) =>
      fun name' definition' hfound => by
        rcases State.addAlias_eq_ok hok with ⟨-, rfl⟩ | ⟨-, rfl⟩ | ⟨-, -, -, -, rfl⟩
        · exact .inr hfound
        · exact .inr hfound
        · exact .inr hfound
  cases registration with
  | definition name definition => exact hdefine hfresh
  | holder name shorthands definition =>
    exact hK.bind (hdefine hfresh) fun _ => hK.forM fun shorthand _ => haddAlias name shorthand
  | removal name =>
    refine hregister fun state after hok name' definition hfound => ?_
    obtain ⟨-, rfl⟩ := State.remove_eq_ok_iff.mp hok
    have hfound : (state.definitions.erase name).find? name' = some definition := hfound
    rw [Table.find?_erase] at hfound
    split at hfound
    · cases hfound
    · exact .inr hfound
  | shorthand name shorthand => exact haddAlias name shorthand
  | singleton name value =>
    refine hregister fun state after hok name' definition hfound => ?_
    obtain ⟨-, rfl⟩ := State.addSingleton_eq_ok_iff.mp hok
    exact .inr hfound

/-- What is changed neither in states nor in the journal is remembered. -/
theorem Remembers.of_states {start world after : World} (h : Remembers family start world)
    (hstates : after.states = world.states) (hjournal : after.journal = world.journal) :
    Remembers family start after where
  grows := by
    refine h.grows.trans ⟨fun index => ?_, hjournal ▸ List.suffix_refl _⟩
    have hstate : after.state index = world.state index := by
      unfold World.state
      rw [hstates]
    rw [hstate]
    exact .refl _
  keeping := h.keeping.of_states hstates
  memos := h.memos.of_states hstates

/-- **Whatever is asked, right types are noted.** -/
theorem Inquiry.remembers {start : World} (hundefined : start.AliasesUndefined)
    (hstart : start.MemosKnown family) (member : family.Member) (depth : Nat) (inquiry : Inquiry) :
    (inquiry.answer depth member.registry member.ancestors).Keeps
      fun world after => Remembers family start world → Remembers family start after := by
  have hK := minding_remembers family start
  have hh := serve_remembers hundefined hstart depth
  have hp := provider_remembers hh member depth
  refine hK.answer hh.1 member.has inquiry (fun name user _ => hp.noteDependent name user)
    (fun inner outer _ => hp.noteContained inner outer)
    (fun name definition _ => hh.2 _ name definition member.has) ?_
  rintro beanName definition converter path raw times rfl
  refine hK.bind (fun world h => h.of_states rfl rfl) fun _ => hK.discard ?_
  exact hK.toComposable.resolveBench hp.toGrants (fun _ _ _ h => h.of_states rfl rfl)
    (fun text => hp.evaluate text)
    (fun path inner => Resolution.resolveNested_mem hK.toComposable hp path inner.1 inner.2) path times

/-- **After any run, the types that are noted in merged definitions are right.** -/
theorem World.memosKnown_after : ∀ operations : List (Operation family),
    (∀ operation ∈ operations, operation.Fresh) → (World.after operations).MemosKnown family := by
  intro operations
  induction operations using List.reverseRecOn with
  | nil => exact fun _ => ⟨fun _ _ _ hfound => (nomatch hfound), fun _ _ _ hfound => (nomatch hfound)⟩
  | append_singleton operations operation ih =>
    intro hfresh
    have h := ih fun earlier hmem => hfresh earlier (List.mem_append_left _ hmem)
    have hlast := hfresh operation (List.mem_append_right _ (List.mem_singleton_self _))
    have hreachable : Reachable family (World.after operations) := ⟨operations, rfl⟩
    rw [after_concat]
    cases operation with
    | register member registration =>
      refine ⟨member.registry.take_asWritten hlast _ h.fresh, fun holder name definition hfound => ?_⟩
      exact h.kept holder name definition
        ((member.registry.take_keepsLess registration _ _).1 name definition hfound)
    | inquire member depth inquiry =>
      exact (inquiry.remembers hreachable.aliasesUndefined h member depth _ (.refl h)).memos

end Injector
