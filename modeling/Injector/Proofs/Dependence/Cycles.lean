import Injector.Proofs.Creation.Guard
import Injector.Proofs.Dependence.Links

/-!
# Cycles are refused

There are two ways in which having a bean can lead back to it. Its creation may ask for it, or for
something that asks for it: then it is being created already. Or it may be waited for by one of its own
prerequisites: then links lead from it to the prerequisite (`World.ClosesCycle`). In both cases it is
refused (`Chain.bean_refused`).

The one is noted before the creation begins and the other before the prerequisite is had, and neither
note is lost while other beans are had: no bean leaves the set of those being created but by the end of
its own creation, and links only grow (`World.Advances`).
-/

namespace Injector

open Relation

variable {family : Family} {world : World} {registry : Registry} {ancestors : Chain}

namespace State

theorem LinksGrow.transGen {table after : Table NameSet} (h : LinksGrow table after)
    {name goal : String} (hchain : TransGen (Links table) name goal) :
    TransGen (Links after) name goal :=
  TransGen.mono (fun first _ hlink => (h.names first).subset hlink) _ _ hchain

end State

/-- The name of the bean that a container is asked for, as written by who asks. -/
def World.meant (world : World) (registry : Registry) (written : String) : String :=
  (world.state registry.index).canonicalName (plainName written)

/-! ## Closing a cycle -/

/-- To have a bean anew would close a cycle: the bean is being created already, or one of its
prerequisites depends on it. -/
inductive World.ClosesCycle (world : World) (registry : Registry) (ancestors : Chain) (name : String) :
    Prop
  | creation (h : (world.state registry.index).inCreation.contains name = true)
  | prerequisite {merged : Definition} {after : World} {prerequisite : String}
      (hmerged : mergedDefinition (registry :: ancestors) name world = (.ok merged, after))
      (hmem : prerequisite ∈ merged.dependsOn)
      (hchain : TransGen (State.Links (world.state registry.index).dependents) name prerequisite)

/-- A prerequisite that depends on the bean already is refused, whatever is had before it. -/
theorem realizePrerequisites_refused (hundefined : world.AliasesUndefined)
    (hf : family.Has (registry :: ancestors)) {depth : Nat} {name prerequisite : String}
    {merged : Definition} {after : World}
    (hdefined : (world.state registry.index).definitions.contains name = true)
    (hmem : prerequisite ∈ merged.dependsOn)
    (hchain : TransGen (State.Links (world.state registry.index).dependents) name prerequisite) :
    realizePrerequisites (serve depth) registry ancestors name merged world ≠ (.ok (), after) := by
  intro hrun
  have hK := housekeeping_advancing family
  have hserve := (serve_advancing family depth).1
  rw [realizePrerequisites_eq] at hrun
  obtain ⟨before, next, hadvances, hdone, -⟩ := Work.forM_eq_ok (advancing_refl family)
    (advancing_trans family) (fun other _ => hK.realizePrerequisite hserve hf name merged other) hrun hmem
  have hframed := (hadvances hundefined).framed registry.index
  have hcanonical : (before.state registry.index).canonicalName name = name := by
    rw [World.canonicalName_congr hframed.sources.2]
    exact hundefined.canonicalName hdefined
  have hdependent : (before.state registry.index).isDependent name prerequisite = true := by
    rw [State.isDependent_iff, hcanonical]
    exact hframed.dependents.transGen hchain
  unfold realizePrerequisite at hdone
  rw [Work.state_bind_apply, if_pos hdependent] at hdone
  cases hdone

/-- A bean that is being created is not given to anyone who asks for its instance. -/
theorem instanceOf_refused {handler : Handler} {depth : Nat} {name : String} {merged : Definition}
    {value : Value} {after : World}
    (hnone : (world.state registry.index).singletons.find? name = none)
    (hcreating : (world.state registry.index).inCreation.contains name = true) :
    instanceOf handler depth registry ancestors name merged world ≠ (.ok value, after) := by
  intro hrun
  have hrefused := guarded_of_creating (instantiate handler depth registry ancestors name
    (.merged registry.index name) merged) hcreating
  unfold instanceOf at hrun
  split at hrun
  · unfold singletonOr at hrun
    rw [Work.state_bind_apply, hnone] at hrun
    dsimp only at hrun
    rw [Work.bind_apply_error hrefused] at hrun
    cases hrun
  · rw [hrefused] at hrun
    cases hrun

/-- **Whoever asks for a bean that would close a cycle is refused**, unless its instance is kept. -/
theorem Chain.bean_refused (hundefined : world.AliasesUndefined) (member : family.Member) (depth : Nat)
    (written : String)
    (hdefined : (world.state member.registry.index).definitions.contains
      (world.meant member.registry written) = true)
    (hnone : (world.state member.registry.index).singletons.find?
      (world.meant member.registry written) = none)
    (h : world.ClosesCycle member.registry member.ancestors (world.meant member.registry written))
    (value : Value) : (Chain.bean depth member.chain written world).1 ≠ .ok value := by
  intro hok
  obtain ⟨lower, between, -, hfetch, -⟩ := bean_eq_ok (Prod.ext hok rfl)
  obtain ⟨merged, first, second, instance_, third, hmerged, hrealized, hinstance, -⟩ :=
    fetchBean_eq_ok rfl hnone hdefined hfetch
  unfold World.meant at hdefined hnone h
  generalize (world.state member.registry.index).canonicalName (plainName written) = name at *
  have hK := housekeeping_advancing family
  have hh := serve_advancing family lower
  have hfirst : world.Advances family first :=
    Work.Keeps.run (hK.merged member.has name) hmerged hundefined
  have hundefined₁ := hfirst.aliasesUndefined hundefined
  have hsecond : first.Advances family second :=
    Work.Keeps.run (hK.realizePrerequisites hh.1 member.has name merged) hrealized hundefined₁
  cases h with
  | creation hcreating =>
    -- it is still being created after its prerequisites were had
    have hadvances := hfirst.trans hsecond
    refine instanceOf_refused (hadvances.unkept_of_creating hnone hcreating) ?_ hinstance
    rw [(hadvances.framed _).inCreation]
    exact hcreating
  | prerequisite hmerged' hmem hchain =>
    -- links only grow, so the chain that closes the cycle is still there
    cases hmerged.symm.trans hmerged'
    refine realizePrerequisites_refused hundefined₁ member.has ?_ hmem
      ((hfirst.framed _).dependents.transGen hchain) hrealized
    rw [(hfirst.framed _).sources.1]
    exact hdefined

end Injector
