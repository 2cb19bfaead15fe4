import Injector.Proofs.Dependence.Links
import Injector.Proofs.Names.AliasCycles

/-!
# Questions about dependencies, asked by any name

Dependencies are noted under the name that a bean's name stands for, so whom a bean is depended on by,
directly or over others, is the same for all of its names. The other questions take a name as it is:
whether any bean depends on it, what it depends on, and whether it is the one that depends on another.

So an alias and its bean are answered alike exactly if the notes themselves say the same of both
(`State.NotedAlike`), and it is enough to look at each alias and the name it is bound to, however long
the chains of aliases are (`State.queries_respect_beans`).
-/

namespace Injector

open Relation

namespace State

/-- All questions about dependencies are answered alike for names that stand for the same bean. -/
structure QueriesRespectBeans (state : State) : Prop where
  dependentsOf : ∀ {name name'}, state.canonicalName name = state.canonicalName name' →
    state.dependentsOf name = state.dependentsOf name'
  hasDependents : ∀ {name name'}, state.canonicalName name = state.canonicalName name' →
    state.hasDependents name = state.hasDependents name'
  hasDependents_iff : ∀ name, state.hasDependents name = true ↔ state.dependentsOf name ≠ []
  dependenciesOf : ∀ {name name'}, state.canonicalName name = state.canonicalName name' →
    state.dependenciesOf name = state.dependenciesOf name'
  isDependent : ∀ {name name' dependent dependent'},
    state.canonicalName name = state.canonicalName name' →
    state.canonicalName dependent = state.canonicalName dependent' →
    state.isDependent name dependent = state.isDependent name' dependent'

/-- What is noted under two names themselves is alike: whether there are beans that depend on them, what
they depend on, and which beans they depend on over others. -/
structure NotedAlike (state : State) (name other : String) : Prop where
  dependents : linksOf state.dependents name ≠ [] ↔ linksOf state.dependents other ≠ []
  dependencies : linksOf state.dependencies name = linksOf state.dependencies other
  ways : ∀ bean, TransGen (Links state.dependents) (state.canonicalName bean) name ↔
    TransGen (Links state.dependents) (state.canonicalName bean) other

variable {state : State} {name other : String}

theorem hasDependents_iff_linksOf :
    state.hasDependents name = true ↔ linksOf state.dependents name ≠ [] := by
  unfold hasDependents linksOf
  cases state.dependents.find? name with
  | none => simp
  | some names => simp [NameSet.isEmpty]

namespace NotedAlike

theorem refl (state : State) (name : String) : state.NotedAlike name name :=
  ⟨Iff.rfl, rfl, fun _ => Iff.rfl⟩

theorem trans {third : String} (h : state.NotedAlike name other)
    (h' : state.NotedAlike other third) : state.NotedAlike name third where
  dependents := h.dependents.trans h'.dependents
  dependencies := h.dependencies.trans h'.dependencies
  ways bean := (h.ways bean).trans (h'.ways bean)

variable (h : ∀ name target, Hop state.aliases name target → state.NotedAlike name target)

include h

theorem of_leads (hleads : ReflTransGen (Hop state.aliases) name other) :
    state.NotedAlike name other := by
  induction hleads with
  | refl => exact .refl state name
  | tail _ hhop ih => exact ih.trans (h _ _ hhop)

/-- If each alias is noted as its target, each name is noted as what it stands for. -/
theorem canonicalName (name : String) : state.NotedAlike name (state.canonicalName name) :=
  of_leads h (reflTransGen_follow _ _ _)

end NotedAlike

/-- Names that stand for the same bean have the same beans depending on them. -/
theorem dependentsOf_congr (h : state.canonicalName name = state.canonicalName other) :
    state.dependentsOf name = state.dependentsOf other := by
  rw [dependentsOf, dependentsOf, h]

theorem isDependent_congr_left (h : state.canonicalName name = state.canonicalName other)
    (dependent : String) : state.isDependent name dependent = state.isDependent other dependent := by
  rw [isDependent, isDependent, h]

/-- What is noted of each alias as of its target is answered alike. -/
theorem queriesRespectBeans_of_notedAlike
    (h : ∀ name target, Hop state.aliases name target → state.NotedAlike name target) :
    state.QueriesRespectBeans where
  dependentsOf := dependentsOf_congr
  hasDependents {name name'} hsame := by
    rw [Bool.eq_iff_iff, hasDependents_iff_linksOf, hasDependents_iff_linksOf,
      (NotedAlike.canonicalName h name).dependents, hsame,
      (NotedAlike.canonicalName h name').dependents]
  hasDependents_iff name := by
    rw [hasDependents_iff_linksOf, (NotedAlike.canonicalName h name).dependents]
    rfl
  dependenciesOf {name name'} hsame :=
    ((NotedAlike.canonicalName h name).dependencies.trans (hsame ▸ rfl)).trans
      (NotedAlike.canonicalName h name').dependencies.symm
  isDependent {name name' dependent dependent'} hsame hsame' := by
    rw [isDependent_congr_left hsame, Bool.eq_iff_iff, isDependent_iff, isDependent_iff,
      (NotedAlike.canonicalName h dependent).ways, hsame',
      (NotedAlike.canonicalName h dependent').ways]

/-- **The beans that depend on a bean, directly or over others, are the same by all of its names, and
whether there are any is told by the name that the bean itself has. All questions are answered alike for
all names of a bean exactly if each alias is noted as the name that it is bound to.** -/
theorem queries_respect_beans (state : State) :
    (∀ name name', state.canonicalName name = state.canonicalName name' →
      state.dependentsOf name = state.dependentsOf name' ∧
        ∀ dependent, state.isDependent name dependent = state.isDependent name' dependent) ∧
    (∀ name, state.hasDependents (state.canonicalName name) = true ↔ state.dependentsOf name ≠ []) ∧
    (Acyclic state.aliases → (state.QueriesRespectBeans ↔
      ∀ name target, Hop state.aliases name target → state.NotedAlike name target)) := by
  refine ⟨fun name name' h => ⟨dependentsOf_congr h, isDependent_congr_left h⟩,
    fun name => hasDependents_iff_linksOf, fun hacyclic => ⟨?_, queriesRespectBeans_of_notedAlike⟩⟩
  intro h name target hhop
  have hsame : state.canonicalName name = state.canonicalName target :=
    canonicalName_eq_of_leads hacyclic (.head hhop (reflTransGen_follow _ _ _))
      (find?_canonicalName hacyclic target)
  exact {
    dependents := by
      rw [← hasDependents_iff_linksOf, ← hasDependents_iff_linksOf, h.hasDependents hsame]
    dependencies := h.dependenciesOf hsame
    ways := fun bean => by
      rw [← isDependent_iff, ← isDependent_iff, h.isDependent rfl hsame] }

end State

/-! ### A bean that has an alias -/

/-- The name `x` is an alias for `a`, on which the bean `u` is noted to depend. -/
def aliasedOperations : List (Operation (Family.lone { index := 0 })) :=
  let member := Registry.lone { index := 0 }
  [.register member (.shorthand "a" "x"), .inquire member 0 (.dependent "a" "u")]

/-- A bean depends on `x`, and yet none is said to. -/
theorem not_queriesRespectBeans_aliased :
    ¬ ((World.after aliasedOperations).state 0).QueriesRespectBeans := by
  intro h
  have hnone : ((World.after aliasedOperations).state 0).hasDependents "x" = false := by decide
  have hsome : ((World.after aliasedOperations).state 0).dependentsOf "x" ≠ [] := by decide
  rw [← h.hasDependents_iff "x", hnone] at hsome
  cases hsome

end Injector
