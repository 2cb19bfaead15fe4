import Injector.Proofs.Autowiring.Injection

/-!
# A tie that is broken by the name of the place

Of several candidates of which not one alone is primary, the one is meant that goes by the name of the
place. A qualifier is followed to the name that it stands for in the end, as names are everywhere. The name
of a place is not followed: it is compared with the candidates' own names, and with the aliases that are
bound to just these.

So the name of a place means what it would as a qualifier, in whatever order the candidates come, unless it
is an alias and a name is passed on the way that is a candidate, or the alias is not bound to the candidate
itself (`tie_broken_as_qualified_iff`). An alias of an alias is the least case of the latter
(`not_broken_by_alias_of_alias`).
-/

namespace Injector

variable {family : Family}

/-- Aliases that lead down a rank lead nowhere twice. -/
theorem acyclic_of_ranked {aliases : Table String} (rank : String → Nat)
    (h : ∀ name target, Hop aliases name target → rank target < rank name) : Acyclic aliases := by
  intro name hring
  have hdown : ∀ last, Relation.TransGen (Hop aliases) name last → rank last < rank name := by
    intro last hleads
    induction hleads with
    | single hhop => exact h _ _ hhop
    | tail _ hhop ih => exact (h _ _ hhop).trans ih
  exact (hdown name hring).false

namespace State

variable {state : State} {candidates names : List String} {wanted name : String}

/-- A name means what it stands for, if it is no alias, or if it is no candidate itself and is bound to what
it stands for in the end; or if neither that nor the name to which it is bound is a candidate. -/
def MeansItsEnd (state : State) (candidates : List String) (wanted : String) : Prop :=
  ∀ target, Hop state.aliases wanted target → wanted ∉ candidates ∧
    (target = state.canonicalName wanted ∨
      (target ∉ candidates ∧ state.canonicalName wanted ∉ candidates))

/-- A tie is broken in favour of a candidate that goes by the name. -/
theorem Means.goesBy (h : state.Means candidates (some wanted) name) (hseveral : candidates.length ≠ 1)
    (hprimary : (state.primaries candidates).length ≠ 1) : state.GoesBy name wanted := by
  rcases h with h | ⟨-, h⟩ | @⟨wanted', _, _, _, -, -, hplace, -, hname, -⟩
  · exact absurd (congrArg List.length h) hseveral
  · exact absurd (congrArg List.length h) hprimary
  · rw [Option.some.inj hplace]
    exact hname

/-- Of candidates of which the first goes by the name, it is the one that is meant. -/
theorem meant_cons_of_goesBy {rest : List String} (hseveral : (name :: rest).length ≠ 1)
    (hprimary : (state.primaries (name :: rest)).length ≠ 1) (hname : state.GoesBy name wanted) :
    state.meant (name :: rest) (some wanted) = some name :=
  meant_eq_some_iff.mpr (.named hseveral hprimary rfl (List.nil_append _).symm hname
    fun _ hother => (List.not_mem_nil hother).elim)

/-- If one name alone goes by the wanted one, it is meant if it is a candidate, and otherwise none is. -/
theorem meant_of_goesBy_iff {last : String} (hseveral : candidates.length ≠ 1)
    (hprimary : (state.primaries candidates).length ≠ 1)
    (h : ∀ name ∈ candidates, state.GoesBy name wanted ↔ name = last) :
    state.meant candidates (some wanted) = if last ∈ candidates then some last else none := by
  split
  · next hlast =>
    cases hmeant : state.meant candidates (some wanted) with
    | none =>
      have hnobody := (meant_eq_none_iff.mp hmeant).2.2 wanted rfl last hlast
      exact absurd ((h last hlast).mpr rfl) hnobody
    | some name =>
      have hmeans := meant_eq_some_iff.mp hmeant
      exact congrArg some ((h name hmeans.mem).mp (hmeans.goesBy hseveral hprimary))
  · next hlast =>
    refine meant_eq_none_iff.mpr ⟨hseveral, hprimary, fun other hother name hname hgoes => hlast ?_⟩
    obtain rfl := Option.some.inj hother
    exact (h name hname).mp hgoes ▸ hname

theorem primaries_perm (h : names.Perm candidates) :
    (state.primaries names).length = (state.primaries candidates).length :=
  (h.filter _).length_eq

/-- A candidate may come first. -/
theorem exists_perm_cons (h : name ∈ candidates) : ∃ rest, (name :: rest).Perm candidates :=
  ⟨candidates.erase name, (List.perm_cons_erase h).symm⟩

/-- **In whatever order the candidates come, what a name stands for is meant, if it is a candidate, and
otherwise none is; exactly if the name means its end.** -/
theorem meant_perm_iff (hacyclic : Acyclic state.aliases) (hseveral : candidates.length ≠ 1)
    (hprimary : (state.primaries candidates).length ≠ 1) :
    (∀ order : List String, order.Perm candidates →
        state.meant order (some wanted) =
          if state.canonicalName wanted ∈ candidates then some (state.canonicalName wanted) else none) ↔
      state.MeansItsEnd candidates wanted := by
  constructor
  · -- what the name is bound to is told from its end by putting it first
    intro h target hhop
    have hend : Hop state.aliases (state.canonicalName wanted) target → False := by
      intro hhop'
      unfold Hop at hhop'
      rw [find?_canonicalName hacyclic] at hhop'
      cases hhop'
    have hne : wanted ≠ state.canonicalName wanted := fun heq => hend (heq ▸ hhop)
    -- whoever goes by the name is meant where it comes first
    have hfirst {name : String} (hname : name ∈ candidates) (hgoes : state.GoesBy name wanted) :
        name = state.canonicalName wanted := by
      obtain ⟨rest, hperm⟩ := exists_perm_cons hname
      have hmeant := h _ hperm
      rw [meant_cons_of_goesBy (hperm.length_eq ▸ hseveral) (primaries_perm hperm ▸ hprimary) hgoes] at hmeant
      split at hmeant
      · exact Option.some.inj hmeant
      · cases hmeant
    refine ⟨fun hwanted => hne (hfirst hwanted (.inl rfl)), or_iff_not_imp_left.mpr fun htarget => ?_⟩
    refine ⟨fun hmem => htarget (hfirst hmem (.inr hhop)), fun hmem => ?_⟩
    have hmeant := h candidates (.refl _)
    rw [if_pos hmem] at hmeant
    rcases (meant_eq_some_iff.mp hmeant).goesBy hseveral hprimary with heq | hhop'
    · exact hne heq.symm
    · exact htarget (hhop.unique hhop')
  · intro h order hperm
    have hmem (name : String) : name ∈ order ↔ name ∈ candidates := hperm.mem_iff
    rw [← if_congr (hmem _) rfl rfl]
    refine meant_of_goesBy_iff (hperm.length_eq ▸ hseveral) (primaries_perm hperm ▸ hprimary)
      fun name hname => ?_
    rw [hmem] at hname
    -- only the end itself is a candidate that goes by the name
    cases hbound : state.aliases.find? wanted with
    | none =>
      unfold GoesBy Hop
      rw [hbound, canonicalName_of_end hbound]
      simp
    | some target =>
      obtain ⟨hwanted, hends⟩ := h target hbound
      unfold GoesBy Hop
      rw [hbound, Option.some.injEq]
      constructor
      · rintro (rfl | rfl)
        · exact absurd hname hwanted
        · exact hends.resolve_right fun hneither => hneither.1 hname
      · rintro rfl
        exact .inr (hends.resolve_right fun hneither => hneither.2 hname)

end State

/-- The dependency with a name as its qualifier. -/
def Dependency.qualifiedBy (dependency : Dependency) (name : String) : Dependency :=
  { dependency with qualifier := some name }

/-- With a qualifier, there is no candidate but what the qualifier stands for. -/
theorem World.candidates_qualifiedBy {world : World} {dependency : Dependency} {requester : String}
    {registry : Registry} {ancestors : Chain} (hunqualified : dependency.qualifier = none)
    (wanted : String) :
    world.candidates (dependency.qualifiedBy wanted) requester registry ancestors =
      if (world.state registry.index).canonicalName wanted ∈
        world.candidates dependency requester registry ancestors
      then [(world.state registry.index).canonicalName wanted] else [] := by
  have hnodup : (world.candidates dependency requester registry ancestors).Nodup :=
    World.nodup_candidates
  have hqualified : world.candidates (dependency.qualifiedBy wanted) requester registry ancestors =
      (world.candidates dependency requester registry ancestors).filter fun name =>
        name == (world.state registry.index).canonicalName wanted := by
    unfold World.candidates Dependency.qualifiedBy
    rw [hunqualified]
  rw [hqualified, List.filter_beq]
  split
  · next hmem => rw [List.count_eq_one_of_mem hnodup hmem, List.replicate_one]
  · next hmem => rw [List.count_eq_zero_of_not_mem hmem, List.replicate_zero]

section

variable {dependency : Dependency} {converter : Converter} {registry : Registry} {ancestors : Chain}
  {order : List String} {chosen : String} {world : World}

/-- The same is injected, however beans are had, if a candidate is meant as if it were the only one. -/
theorem inject_eq_only_iff (hshape : dependency.shape = .single) (wanted : String) :
    (∀ fetch, inject fetch registry ancestors dependency converter order world =
        inject fetch registry ancestors (dependency.qualifiedBy wanted) converter [chosen] world) ↔
      (world.state registry.index).meant order dependency.name = some chosen := by
  have honly (fetch : Fetch) :
      inject fetch registry ancestors (dependency.qualifiedBy wanted) converter [chosen] world =
        (Work.attempt (fetch (registry :: ancestors) chosen) >>= fun result =>
          pure (injectedFor dependency converter chosen result)) world :=
    inject_of_meant hshape rfl fetch
  constructor
  · intro h
    -- beans that are refused by their names tell which of them is asked for
    have hasked := (h fun _ name => Work.fail (.noSuchBean name)).trans (honly _)
    cases hmeant : (world.state registry.index).meant order dependency.name with
    | none =>
      rw [inject_of_none_meant hshape hmeant] at hasked
      cases hasked
    | some name =>
      rw [inject_of_meant hshape hmeant] at hasked
      cases hasked
      rfl
  · intro hmeant fetch
    exact (inject_of_meant hshape hmeant fetch).trans (honly fetch).symm

/-- It is a failure that there is no single bean, however beans are had, if no candidate is meant. -/
theorem inject_eq_none_iff (hshape : dependency.shape = .single) :
    (∀ fetch, inject fetch registry ancestors dependency converter order world =
        (.ok ([], .error (.noUniqueBean dependency.type.name order)), world)) ↔
      (world.state registry.index).meant order dependency.name = none := by
  constructor
  · intro h
    have hasked := h fun _ name => Work.fail (.noSuchBean name)
    cases hmeant : (world.state registry.index).meant order dependency.name with
    | none => rfl
    | some name =>
      rw [inject_of_meant hshape hmeant] at hasked
      cases hasked
  · exact fun hmeant fetch => inject_of_none_meant hshape hmeant fetch

end

/-- **A tie is broken by the name of the place.** It is broken among the candidates of the nearest container
that has any. In whatever order they come, what is injected is what would be with the name as a qualifier,
which leaves what the name stands for if that is a candidate, and there is no single bean otherwise; exactly
if the name means its end. -/
theorem tie_broken_as_qualified_iff (start : World) (converter : Converter) {member : family.Member}
    {dependency : Dependency} {requester wanted : String} {registry : Registry} {ancestors : Chain}
    (hacyclic : Acyclic (start.state registry.index).aliases) (hshape : dependency.shape = .single)
    (hunqualified : dependency.qualifier = none) (hplace : dependency.name = some wanted)
    (hsupplies : start.Supplies dependency requester member.chain registry ancestors)
    (hseveral : 1 < (start.candidates dependency requester registry ancestors).length)
    (hprimary : ((start.state registry.index).primaries
      (start.candidates dependency requester registry ancestors)).length ≠ 1) :
    (∃ between, start.Unmoved family between ∧ ∀ fetch,
      autowire fetch member.chain dependency requester converter start =
        inject fetch registry ancestors dependency converter
          (start.candidates dependency requester registry ancestors) between) ∧
    start.candidates (dependency.qualifiedBy wanted) requester registry ancestors =
      (if (start.state registry.index).canonicalName wanted ∈
        start.candidates dependency requester registry ancestors
      then [(start.state registry.index).canonicalName wanted] else []) ∧
    ((∀ order : List String, order.Perm (start.candidates dependency requester registry ancestors) →
        ∀ world, start.Unmoved family world → ∀ fetch,
          inject fetch registry ancestors dependency converter order world =
            if (start.state registry.index).canonicalName wanted ∈
              start.candidates dependency requester registry ancestors
            then inject fetch registry ancestors (dependency.qualifiedBy wanted) converter
              [(start.state registry.index).canonicalName wanted] world
            else (.ok ([], .error (.noUniqueBean dependency.type.name order)), world)) ↔
      (start.state registry.index).MeansItsEnd
        (start.candidates dependency requester registry ancestors) wanted) := by
  refine ⟨?_, World.candidates_qualifiedBy hunqualified wanted, ?_⟩
  · obtain ⟨between, hbetween, -, ⟨hnothing, -⟩ | ⟨other, others, hother, hrun⟩⟩ :=
      autowire_settled dependency requester converter member.chain_has (World.Unmoved.refl family start)
    · exact absurd (hnothing registry ancestors hsupplies.suffix) hsupplies.nonempty
    · obtain ⟨rfl, rfl⟩ := hsupplies.unique hother
      exact ⟨between, hbetween, hrun⟩
  · rw [← State.meant_perm_iff hacyclic hseveral.ne' hprimary]
    refine forall₂_congr fun order _ => ?_
    -- in every world that is not moved, the same candidate is meant
    have hmeant {world : World} (hworld : start.Unmoved family world) :
        (world.state registry.index).meant order dependency.name =
          (start.state registry.index).meant order (some wanted) := by
      rw [State.meant_congr (hworld.sources registry.index), hplace]
    have hrefl := World.Unmoved.refl family start
    by_cases hend : (start.state registry.index).canonicalName wanted ∈
        start.candidates dependency requester registry ancestors
    · simp only [if_pos hend]
      constructor
      · intro h
        rw [← hmeant hrefl]
        exact (inject_eq_only_iff hshape wanted).mp (h start hrefl)
      · intro h world hworld
        exact (inject_eq_only_iff hshape wanted).mpr ((hmeant hworld).trans h)
    · simp only [if_neg hend]
      constructor
      · intro h
        rw [← hmeant hrefl]
        exact (inject_eq_none_iff hshape).mp (h start hrefl)
      · intro h world hworld
        exact (inject_eq_none_iff hshape).mpr ((hmeant hworld).trans h)

/-- The name of the place is bound to the first of two beans. -/
theorem tie_broken_as_qualified_alias :
    ((World.after rivalOperations).state 0).MeansItsEnd ["a", "b"] "x" ∧
      ∃ between, (World.after rivalOperations).Unmoved (Family.lone plainRegistry) between ∧ ∀ fetch,
        autowire fetch [plainRegistry] rivalDependency "c" Conversion.simple
            (World.after rivalOperations) =
          inject fetch plainRegistry [] (rivalDependency.qualifiedBy "x") Conversion.simple ["a"]
            between := by
  have hcandidates : (World.after rivalOperations).candidates rivalDependency "c"
      (Registry.lone plainRegistry).registry (Registry.lone plainRegistry).ancestors = ["a", "b"] := by
    decide +kernel
  have hentries : ((World.after rivalOperations).state 0).aliases.entries = [("x", "a")] := by decide
  have hacyclic : Acyclic ((World.after rivalOperations).state 0).aliases := by
    refine acyclic_of_ranked (fun name => if name = "x" then 1 else 0) fun name target hhop => ?_
    have hentry := Table.find?_eq_some_iff_mem.mp hhop
    rw [hentries] at hentry
    cases List.mem_singleton.mp hentry
    decide
  have hmeans : ((World.after rivalOperations).state 0).MeansItsEnd ["a", "b"] "x" := by
    intro target hhop
    obtain rfl : "a" = target := Option.some.inj hhop
    exact ⟨by decide, .inl (by decide)⟩
  refine ⟨hmeans, ?_⟩
  have hsupplies : (World.after rivalOperations).Supplies rivalDependency "c"
      (Registry.lone plainRegistry).chain (Registry.lone plainRegistry).registry
      (Registry.lone plainRegistry).ancestors := .here (hcandidates ▸ List.cons_ne_nil _ _)
  have hbroken := tie_broken_as_qualified_iff (World.after rivalOperations) Conversion.simple hacyclic
    rfl rfl rfl hsupplies (by rw [hcandidates]; decide) (by rw [hcandidates]; decide +kernel)
  rw [hcandidates] at hbroken
  obtain ⟨⟨between, hbetween, hrun⟩, -, hiff⟩ := hbroken
  exact ⟨between, hbetween, fun fetch =>
    (hrun fetch).trans (hiff.mpr hmeans _ (.refl _) between hbetween fetch)⟩

/-! ### An alias of an alias -/

/-- The candidates of which none is meant, if that is the failure. -/
def undecided? : Except Failure Value → Option (List String)
  | .error (.noUniqueBean _ candidates) => some candidates
  | _ => none

/-- Two beans of a class, an alias for the first, and an alias for the alias. -/
def relayedOperations : List (Operation (Family.lone plainRegistry)) :=
  rivalOperations ++ [.register (Registry.lone plainRegistry) (.shorthand "x" "y")]

/-- The name of the place stands for one of the two beans, and it is injected with the name as a
qualifier. With the name alone it is undecided which is meant. -/
theorem not_broken_by_alias_of_alias :
    Acyclic ((World.after relayedOperations).state 0).aliases ∧
      ((World.after relayedOperations).state 0).canonicalName "y" = "a" ∧
      (World.after relayedOperations).candidates { type := .bean "P", name := some "y" } "c"
        plainRegistry [] = ["a", "b"] ∧
      ((World.after relayedOperations).state 0).primaries ["a", "b"] = [] ∧
      (Chain.injection 1 [plainRegistry] { type := .bean "P", name := some "y" } "c" Conversion.simple
        (World.after relayedOperations)).1.toOption.map
          (fun given => (given.1, undecided? given.2)) = some ([], some ["a", "b"]) ∧
      (Chain.injection 1 [plainRegistry] { type := .bean "P", qualifier := some "y" } "c"
        Conversion.simple (World.after relayedOperations)).1.toOption.map
          (fun given => (given.1, given.2.isOk)) = some (["a"], true) := by
  have hentries : ((World.after relayedOperations).state 0).aliases.entries =
      [("x", "a"), ("y", "x")] := by decide
  refine ⟨?_, by decide, by decide +kernel, by decide +kernel, by decide +kernel, by decide +kernel⟩
  refine acyclic_of_ranked (fun name => if name = "y" then 2 else if name = "x" then 1 else 0)
    fun name target hhop => ?_
  have hentry := Table.find?_eq_some_iff_mem.mp hhop
  rw [hentries] at hentry
  rcases List.mem_cons.mp hentry with heq | hlast
  · cases heq
    decide
  · cases List.mem_singleton.mp hlast
    decide

end Injector
