import Injector.Proofs.Requests.Runs
import Mathlib.Data.List.DropRight

/-!
# Knowing a name and having its bean

Whether a chain of containers knows a name is asked of every container with the name as it was given
(`World.knows`). Who asks for the bean goes another way: what a container has no bean of, it passes on
as the name that it stands for there, and the next container takes it from that name (`World.finds`).

So the two may differ where an alias leads out of its container. `bean_of_not_finds` says that the
second way is the one on which having a bean fails. `agree_iff` says when knowing a name and having its
bean agree in a chain and in all chains of ancestors of it: it is enough to look at such aliases.
-/

namespace Injector

/-! ## Marks -/

/-- There are no marks left to take off. -/
theorem plainName_plainName (name : String) : plainName (plainName name) = plainName name := by
  unfold plainName
  rw [String.toList_ofList, List.dropWhile_idempotent]

theorem plainName_factoryMark (name : String) : plainName (factoryMark ++ name) = plainName name := by
  unfold plainName factoryMark
  rw [String.toList_append]
  rfl

namespace World

variable (world : World)

/-! ## Two ways along a chain -/

/-- The name that a container looks for when it is asked for a name as written. -/
def sought (registry : Registry) (written : String) : String :=
  (world.state registry.index).canonicalName (plainName written)

/-- The name that the ancestors of a container are asked for. -/
def passedOn (registry : Registry) (written : String) : String :=
  if asksForFactory written then factoryMark ++ world.sought registry written
  else world.sought registry written

/-- Whether the container that is asked for the bean of a name, or one of those to which the name is
passed on, has a bean of the name that it looks for. -/
def finds : Chain → String → Bool
  | [], _ => false
  | registry :: ancestors, written =>
    (world.state registry.index).containsLocal written ||
      finds ancestors (world.passedOn registry written)

/-- The name that the last container looks for. -/
def lastSought : Chain → String → String
  | [], name => name
  | [registry], written => world.sought registry written
  | registry :: ancestors, written => lastSought ancestors (world.passedOn registry written)

/-- Asking for the bean of a name succeeds, if requests may be nested deeply enough. -/
def Obtains (chain : Chain) (written : String) : Prop :=
  ∃ depth value after, Chain.bean depth chain written world = (.ok value, after)

/-- If the bean of a name can be had, the name is known; and if it is known, having its bean does not
fail for want of the name. -/
structure Agrees (chain : Chain) (written : String) : Prop where
  knows_of_obtains : world.Obtains chain written → world.knows chain written = true
  finds_of_knows : world.knows chain written = true → world.finds chain written = true

variable {world} {registry : Registry} {ancestors : Chain}

theorem knows_cons (written : String) :
    world.knows (registry :: ancestors) written =
      ((world.state registry.index).containsLocal written || world.knows ancestors written) :=
  rfl

theorem finds_cons (written : String) :
    world.finds (registry :: ancestors) written =
      ((world.state registry.index).containsLocal written ||
        world.finds ancestors (world.passedOn registry written)) :=
  rfl

/-! ## Having a bean that the container does not have -/

/-- What a container has no bean of, it passes on. -/
theorem fetchBean_of_not_containsLocal {handler : Handler} {depth : Nat} {written : String}
    (h : (world.state registry.index).containsLocal written = false) :
    fetchBean handler depth registry ancestors written world =
      fetchAbove handler ancestors written (world.sought registry written) world := by
  unfold State.containsLocal at h
  obtain ⟨hsingleton, hdefined⟩ := Bool.or_eq_false_iff.mp h
  unfold fetchBean
  rw [Work.state_bind_apply]
  dsimp only
  rw [(Table.find?_eq_none_iff _ _).mpr hsingleton]
  dsimp only
  rw [if_neg (Bool.eq_false_iff.mp hdefined)]
  rfl

/-- Without ancestors, nothing is had then. -/
theorem bean_of_not_containsLocal_last {depth : Nat} {written : String}
    (h : (world.state registry.index).containsLocal written = false) :
    Chain.bean (depth + 1) [registry] written world =
      (.error (.failure (.noSuchBean (world.sought registry written))), world) := by
  unfold Chain.bean
  rw [serve, step, Work.bind_apply, fetchBean_of_not_containsLocal h]
  rfl

/-- Otherwise the bean is what the ancestors have for the name that is passed on. -/
theorem bean_of_not_containsLocal {depth : Nat} {written : String} (hne : ancestors ≠ [])
    (h : (world.state registry.index).containsLocal written = false) :
    Chain.bean (depth + 1) (registry :: ancestors) written world =
      (do
        let value ← Chain.bean depth ancestors (world.passedOn registry written)
        Work.note (.served registry.index written value)
        pure value : Work Value) world := by
  unfold Chain.bean
  rw [serve, step, Work.bind_apply, fetchBean_of_not_containsLocal h, fetchAbove,
    if_neg (by rwa [List.isEmpty_iff]), Work.bind_apply]
  rfl

/-- **For a name that is not found, having its bean fails at looking it up**: nothing is done but to pass
the name on, down to the last container, which does not have it. -/
theorem bean_of_not_finds :
    ∀ (chain : Chain) (written : String) (depth : Nat), world.finds chain written = false →
      Chain.bean depth chain written world =
          (.error (.failure (.noSuchBean (world.lastSought chain written))), world) ∨
        Chain.bean depth chain written world = (.error .tooDeep, world)
  | _, _, 0, _ => Or.inr rfl
  | [], _, _ + 1, _ => Or.inl rfl
  | [registry], written, depth + 1, h => by
    rw [finds_cons] at h
    exact Or.inl (bean_of_not_containsLocal_last (Bool.or_eq_false_iff.mp h).1)
  | registry :: next :: ancestors, written, depth + 1, h => by
    rw [finds_cons] at h
    obtain ⟨hlocal, habove⟩ := Bool.or_eq_false_iff.mp h
    rw [bean_of_not_containsLocal (List.cons_ne_nil _ _) hlocal]
    rcases bean_of_not_finds (next :: ancestors) _ depth habove with hfails | hdeep
    · exact Or.inl (Work.bind_apply_error hfails)
    · exact Or.inr (Work.bind_apply_error hdeep)

/-- So a bean is only had if its name is found. -/
theorem finds_of_obtains {chain : Chain} {written : String} (h : world.Obtains chain written) :
    world.finds chain written = true := by
  obtain ⟨depth, value, after, hok⟩ := h
  by_contra hfinds
  rw [Bool.not_eq_true] at hfinds
  rcases bean_of_not_finds chain written depth hfinds with hfails | hdeep
  · rw [hfails] at hok
    cases hok
  · rw [hdeep] at hok
    cases hok

theorem not_obtains_nil (written : String) : ¬ world.Obtains [] written := by
  intro h
  cases finds_of_obtains h

theorem obtains_cons_iff {written : String}
    (h : (world.state registry.index).containsLocal written = false) :
    world.Obtains (registry :: ancestors) written ↔
      world.Obtains ancestors (world.passedOn registry written) := by
  by_cases hne : ancestors = []
  · subst hne
    refine iff_of_false (fun hobtains => ?_) (not_obtains_nil _)
    have hfinds := finds_of_obtains hobtains
    rw [finds_cons, h] at hfinds
    cases hfinds
  · constructor
    · rintro ⟨depth, value, after, hok⟩
      cases depth with
      | zero => cases hok
      | succ depth =>
        rw [bean_of_not_containsLocal hne h] at hok
        obtain ⟨value, after, hok, -⟩ := Work.bind_eq_ok hok
        exact ⟨depth, value, after, hok⟩
    · rintro ⟨depth, value, after, hok⟩
      refine ⟨depth + 1, value, after.noting (.served registry.index written value), ?_⟩
      rw [bean_of_not_containsLocal hne h, Work.bind_apply_ok hok]
      rfl

/-! ## When the two ways agree -/

theorem containsLocal_congr {state : State} {written written' : String}
    (h : plainName written = plainName written') :
    state.containsLocal written = state.containsLocal written' := by
  unfold State.containsLocal
  rw [h]

/-- Marks make no difference to knowing a name. -/
theorem knows_congr {written written' : String} (h : plainName written = plainName written') :
    ∀ chain : Chain, world.knows chain written = world.knows chain written'
  | [] => rfl
  | registry :: ancestors => by
    rw [knows_cons, knows_cons, containsLocal_congr h, knows_congr h ancestors]

/-- A name that is no alias is passed on as it is, but for its marks. -/
theorem plainName_passedOn {written : String}
    (h : (world.state registry.index).aliases.contains (plainName written) = false) :
    plainName (world.passedOn registry written) = plainName written := by
  have hsought : world.sought registry written = plainName written :=
    State.canonicalName_of_end ((Table.find?_eq_none_iff _ _).mpr h)
  unfold passedOn
  rw [hsought]
  split
  · rw [plainName_factoryMark, plainName_plainName]
  · exact plainName_plainName written

/-- An alias, with or without marks, of which the container has no bean. -/
def LeadsOut (world : World) (registry : Registry) (written : String) : Prop :=
  (world.state registry.index).aliases.contains (plainName written) = true ∧
    (world.state registry.index).containsLocal written = false

/-- The ancestors of a container know an alias of it, as they are asked for it, if its bean can be had
from them; and if they know it, they find the name that it is passed on as. -/
def AgreesAbove (world : World) (registry : Registry) (ancestors : Chain) (written : String) : Prop :=
  (world.Obtains ancestors (world.passedOn registry written) → world.knows ancestors written = true) ∧
    (world.knows ancestors written = true →
      world.finds ancestors (world.passedOn registry written) = true)

theorem agrees_nil (written : String) : world.Agrees [] written where
  knows_of_obtains h := absurd h (not_obtains_nil written)
  finds_of_knows h := by cases h

/-- A name of which the container has a bean is known and found there. -/
theorem agrees_of_containsLocal {written : String}
    (h : (world.state registry.index).containsLocal written = true) :
    world.Agrees (registry :: ancestors) written where
  knows_of_obtains _ := by rw [knows_cons, h, Bool.true_or]
  finds_of_knows _ := by rw [finds_cons, h, Bool.true_or]

/-- Of another name the container itself says nothing. -/
theorem agrees_cons_iff {written : String}
    (h : (world.state registry.index).containsLocal written = false) :
    world.Agrees (registry :: ancestors) written ↔ world.AgreesAbove registry ancestors written := by
  have hknows : world.knows (registry :: ancestors) written = world.knows ancestors written := by
    rw [knows_cons, h, Bool.false_or]
  have hfinds : world.finds (registry :: ancestors) written =
      world.finds ancestors (world.passedOn registry written) := by
    rw [finds_cons, h, Bool.false_or]
  constructor
  · rintro ⟨hobtains, hfound⟩
    rw [obtains_cons_iff h, hknows] at hobtains
    rw [hknows, hfinds] at hfound
    exact ⟨hobtains, hfound⟩
  · rintro ⟨hobtains, hfound⟩
    refine ⟨?_, ?_⟩
    · rw [obtains_cons_iff h, hknows]
      exact hobtains
    · rw [hknows, hfinds]
      exact hfound

/-- If the ancestors agree on the name that is passed on, they agree on every name that differs from it
by marks alone. -/
theorem Agrees.above {written : String}
    (h : world.Agrees ancestors (world.passedOn registry written))
    (hplain : plainName (world.passedOn registry written) = plainName written) :
    world.AgreesAbove registry ancestors written := by
  have hknows : world.knows ancestors (world.passedOn registry written) =
      world.knows ancestors written := knows_congr hplain ancestors
  refine ⟨fun hobtains => ?_, fun hknown => ?_⟩
  · rw [← hknows]
    exact h.knows_of_obtains hobtains
  · exact h.finds_of_knows (hknows.trans hknown)

/-- **Knowing names and having their beans agree, in a chain and all chains of ancestors of it, exactly
if the ancestors agree on every alias that leads out of its container.** -/
theorem agree_iff (world : World) (chain : Chain) :
    (∀ part, part <:+ chain → ∀ written, world.Agrees part written) ↔
      ∀ registry ancestors, registry :: ancestors <:+ chain → ∀ written,
        world.LeadsOut registry written → world.AgreesAbove registry ancestors written := by
  constructor
  · intro h registry ancestors hpart written hleads
    exact (agrees_cons_iff hleads.2).mp (h _ hpart written)
  · intro h part hpart
    induction part with
    | nil => exact agrees_nil
    | cons registry ancestors ih =>
      intro written
      have hancestors : ∀ written, world.Agrees ancestors written :=
        ih ((List.suffix_cons _ _).trans hpart)
      cases hlocal : (world.state registry.index).containsLocal written with
      | true => exact agrees_of_containsLocal hlocal
      | false =>
        refine (agrees_cons_iff hlocal).mpr ?_
        cases halias : (world.state registry.index).aliases.contains (plainName written) with
        | true => exact h registry ancestors hpart written ⟨halias, hlocal⟩
        | false =>
          -- the two ways pass on the same name but for its marks, so the induction applies
          exact (hancestors _).above (plainName_passedOn halias)

/-! ### An alias that leads out of its container -/

/-- A container with one ancestor. -/
def pairChain : Chain := [{ index := 1 }, { index := 0 }]

/-- The chain of two containers, and the ancestor alone. -/
def pairFamily : Family := Family.ofChain pairChain (by decide)

/-- An alias `a` for `x` in the container, and a singleton `x` in its ancestor. -/
def leadingOut : List (Operation pairFamily) :=
  [.register ⟨{ index := 1 }, [{ index := 0 }], List.suffix_refl _⟩ (.shorthand "x" "a"),
    .register ⟨{ index := 0 }, [], List.suffix_cons _ _⟩ (.singleton "x" (.int 1))]

/-- The bean of the alias is had from the ancestor, and yet the alias is not known. -/
theorem not_agrees_leadingOut : ¬ (World.after leadingOut).Agrees pairChain "a" := by
  intro h
  have hobtains : (World.after leadingOut).Obtains pairChain "a" := ⟨2, .int 1, _, rfl⟩
  have hunknown : (World.after leadingOut).knows pairChain "a" = false := by decide
  rw [h.knows_of_obtains hobtains] at hunknown
  cases hunknown

end World

end Injector
