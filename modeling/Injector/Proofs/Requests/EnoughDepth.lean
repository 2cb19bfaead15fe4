import Injector.Proofs.Creation.Guard

/-!
# Work that has enough depth

Work that needs more depth than it is given is stopped (`Stop.tooDeep`). Work that is not stopped has
ended, with a result or a failure: no failure that is handled on the way comes from being stopped.

`Work.Ends` says of work that it ends, in every world with a property, and leaves a world with the
property. That is a matter of the parts (`Work.composable_ends`). Housekeeping needs no depth, so it ends
for every property that work of containers leaves as it is (`World.Steady`, `housekeeping_ends`).
-/

namespace Injector

/-! ## Being stopped -/

namespace Work

variable {α β : Type}

/-- The work is not stopped for its depth in a world. -/
def EndsIn (work : Work α) (world : World) : Prop :=
  (work world).1 ≠ .error .tooDeep

theorem endsIn_of_error {work : Work α} {world after : World} {failure : Failure}
    (h : work world = (.error (.failure failure), after)) : work.EndsIn world := by
  unfold EndsIn
  rw [h]
  exact nofun

theorem EndsIn.bind {work : Work α} {next : α → Work β} {world : World} (h : work.EndsIn world)
    (hnext : ∀ value after, work world = (.ok value, after) → (next value).EndsIn after) :
    (work >>= next).EndsIn world := by
  unfold EndsIn at h ⊢
  rw [bind_apply]
  rcases hrun : work world with ⟨stop | value, after⟩ <;> rw [hrun] at h
  · exact fun heq => h (congrArg Except.error (Except.error.inj heq))
  · exact hnext value after hrun

/-- What depends on the state of a registry ends with the state as it is. -/
theorem endsIn_state_bind {registry : Registry} {next : State → Work β} {world : World}
    (h : (next (world.state registry.index)).EndsIn world) :
    (Work.state registry >>= next).EndsIn world :=
  h

theorem EndsIn.attempt {work : Work α} {world : World} (h : work.EndsIn world) :
    work.attempt.EndsIn world := by
  unfold EndsIn Work.attempt at *
  rcases hrun : work world with ⟨(failure | _) | value, after⟩ <;> rw [hrun] at h
  · exact nofun
  · exact absurd rfl h
  · exact nofun

theorem EndsIn.explain {work : Work α} {world : World} (reword : Failure → Failure)
    (h : work.EndsIn world) : (work.explain reword).EndsIn world := by
  unfold EndsIn Work.explain at *
  rcases hrun : work world with ⟨(failure | _) | value, after⟩ <;> rw [hrun] at h
  · exact nofun
  · exact absurd rfl h
  · exact nofun

theorem EndsIn.discard {work : Work α} {world : World} (h : work.EndsIn world) :
    (Functor.discard work).EndsIn world := by
  show ((fun _ => ⟨⟩) <$> work : Work PUnit).EndsIn world
  rw [← bind_pure_comp]
  exact h.bind fun _ _ _ => nofun

/-! ## Ending -/

/-- From a world with a property, the work ends, and in a world with the property. -/
structure Ends (Γ : World → Prop) (work : Work α) : Prop where
  endsIn : ∀ world, Γ world → work.EndsIn world
  keeps : work.Keeps fun world after => Γ world → Γ after

/-- What is done next may rely on where its input comes from. -/
theorem Ends.bind {Γ : World → Prop} {work : Work α} {next : α → Work β} (h : work.Ends Γ)
    (hnext : ∀ (world : World) (value : α) (after : World), Γ world →
      work world = (.ok value, after) → (next value).Ends Γ) : (work >>= next).Ends Γ where
  endsIn world hworld := by
    refine (h.endsIn world hworld).bind fun value after hrun => ?_
    exact (hnext world value after hworld hrun).endsIn after (h.keeps.run hrun hworld)
  keeps world hworld := by
    have hafter := h.keeps world hworld
    rw [bind_apply]
    rcases hrun : work world with ⟨stop | value, after⟩ <;> rw [hrun] at hafter
    · exact hafter
    · exact (hnext world value after hworld hrun).keeps after hafter

/-- Ending is a matter of the parts. -/
theorem composable_ends (Γ : World → Prop) : Composable fun _ work => work.Ends Γ where
  pure value := ⟨fun _ _ => nofun, (compositional_preserves Γ).pure value⟩
  fail failure := ⟨fun _ _ => nofun, (compositional_preserves Γ).fail failure⟩
  get := ⟨fun _ _ => nofun, (compositional_preserves Γ).get⟩
  bind h hnext := h.bind fun _ value _ _ _ => hnext value
  attempt h := ⟨fun world hworld => (h.endsIn world hworld).attempt, keeps_attempt h.keeps⟩
  explain reword h :=
    ⟨fun world hworld => (h.endsIn world hworld).explain reword, keeps_explain reword h.keeps⟩

/-! ## Housekeeping -/

/-- The work is never stopped for its depth. -/
def Shallow (work : Work α) : Prop :=
  ∀ world, work.EndsIn world

theorem composable_shallow : Composable fun _ work => work.Shallow where
  pure _ _ := nofun
  fail _ _ := nofun
  get _ := nofun
  bind h hnext world := (h world).bind fun value after _ => hnext value after
  attempt h world := (h world).attempt
  explain reword h world := (h world).explain reword

theorem shallow_takeMerged (found : World → Except Failure Merged) : (takeMerged found).Shallow := by
  refine composable_shallow.bind composable_shallow.get fun world => ?_
  refine composable_shallow.bind (composable_shallow.ofExcept _) fun merged => ?_
  exact composable_shallow.bind (fun _ => nofun) fun _ => composable_shallow.pure _

theorem shallow_newProduct (label : BeanLabel) (maker : Factory Value) :
    (newProduct label maker).Shallow := by
  refine composable_shallow.bind composable_shallow.get fun world => ?_
  refine composable_shallow.bind (fun _ => nofun) fun _ => ?_
  refine composable_shallow.bind (composable_shallow.ofExcept _) fun product => ?_
  exact composable_shallow.bind (fun _ => nofun) fun _ => composable_shallow.pure _

theorem shallow_freshProduct (registry : Registry) (label : BeanLabel) (maker : Factory Value)
    (name : String) (processed : Bool) :
    (freshProduct registry label maker name processed).Shallow := by
  have hK := composable_shallow
  refine hK.bind (hK.explain _ (shallow_newProduct label maker)) fun made => ?_
  split
  · refine hK.explain _ ?_
    unfold postProcess
    split
    · exact hK.pure _
    · exact hK.ofExcept _
  · exact hK.pure _

theorem shallow_productOf (registry : Registry) (label : BeanLabel) (maker : Factory Value)
    (name : String) (processed : Bool) : (productOf registry label maker name processed).Shallow := by
  have hK := composable_shallow
  refine hK.bind (hK.state registry) fun state => hK.bind ?_ fun product =>
    hK.bind (fun _ => nofun) fun _ => hK.pure _
  have hmake := shallow_freshProduct registry label maker name processed
  unfold sharedProduct
  split
  · exact hmake
  · refine hK.bind (hK.state registry) fun state => ?_
    split
    · exact hK.pure _
    · exact hK.bind hmake fun product => hK.bind (fun _ => nofun) fun _ => hK.pure _

end Work

/-- **Housekeeping needs no depth.** -/
theorem housekeeping_shallow (family : Family) : Housekeeping family fun _ work => work.Shallow where
  toComposable := Work.composable_shallow
  named _ _ _ _ := nofun
  learn _ _ _ _ := nofun
  noteDependent _ _ _ _ := nofun
  noteContained _ _ _ _ := nofun
  merged _ _ := Work.shallow_takeMerged _
  mergedNested _ _ _ _ := Work.shallow_takeMerged _
  product _ := Work.shallow_productOf _

/-- Calling a constructor needs no depth. -/
theorem shallow_construct (registry : Registry) (owner : Owner) (className : String)
    (constructor : Constructor) (inputs : BeanInputs) :
    (construct registry owner className constructor inputs).Shallow := by
  have hK := Work.composable_shallow
  unfold construct
  split
  · exact hK.bind (fun _ => nofun) fun _ => hK.fail _
  · refine hK.bind hK.get fun world => ?_
    exact hK.bind (fun _ => nofun) fun _ => hK.bind (fun _ => nofun) fun _ => hK.pure _

/-! ## Properties that work leaves as they are -/

variable {family : Family} {base : World} {Γ : World → Prop}

/-- A property of worlds that keep to a base, which stays while the world advances. -/
structure World.Steady (family : Family) (base : World) (Γ : World → Prop) : Prop where
  keeping : ∀ {world : World}, Γ world → Keeping family base world
  advance : ∀ {world after : World}, Γ world → world.Advances family after →
    Keeping family base after → Γ after

namespace World.Steady

variable (hΓ : Steady family base Γ) (hundefined : base.AliasesUndefined)

include hΓ hundefined

theorem aliasesUndefined {world : World} (h : Γ world) : world.AliasesUndefined :=
  hundefined.of_sameSources (hΓ.keeping h).sources

/-- Work that advances the world and keeps to the base keeps the property. -/
theorem keeps {α : Type} {work : Work α} (hadvancing : work.Advancing family)
    (hkeeping : work.Keeps fun world after => Keeping family base world → Keeping family base after) :
    work.Keeps fun world after => Γ world → Γ after :=
  fun world h => hΓ.advance h (hadvancing world (hΓ.aliasesUndefined hundefined h))
    (hkeeping world (hΓ.keeping h))

/-- Whatever is requested keeps the property. -/
theorem serve_keeps {chain : Chain} (hf : family.Has chain) (depth : Nat) (name : String) :
    (serve depth (.bean chain name)).Keeps fun world after => Γ world → Γ after :=
  hΓ.keeps hundefined ((serve_advancing family depth).1 chain name hf)
    (((container_keeping family base).serve_within depth).1 chain name hf)

theorem serve_creation_keeps {chain : Chain} (hf : family.Has chain) (depth : Nat) (name : String)
    (definition : Definition) :
    (serve depth (.creation chain name definition)).Keeps fun world after => Γ world → Γ after :=
  hΓ.keeps hundefined ((serve_advancing family depth).2 chain name definition hf)
    (((container_keeping family base).serve_within depth).2 chain name definition hf)

/-- **Housekeeping ends for every steady property.** -/
theorem housekeeping_ends : Housekeeping family fun _ work => work.Ends Γ := by
  have hpieces := ((housekeeping_shallow family).and (housekeeping_advancing family)).and
    (container_keeping family base).toHousekeeping
  exact hpieces.mono (Work.composable_ends Γ) fun h =>
    ⟨fun world _ => h.1.1 world, hΓ.keeps hundefined h.1.2 h.2⟩

end World.Steady

end Injector
