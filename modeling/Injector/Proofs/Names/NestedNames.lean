import Injector.Proofs.Creation.Guard
import Injector.Proofs.Dependence.Links
import Injector.Proofs.Names.Allocation

/-!
# Names of nested beans

A nested singleton goes by the first of the names `x`, `x#1`, `x#2`, … that is not in use
(`State.freeName_first`), and a name without a mark is then neither that of a definition, of an alias or of
a singleton.

Nothing reserves the name. It counts as used from then on because the bean around it is noted to depend
on it, and a bean that something depends on stays so for good. But that is only noted when it is first
noted that the one bean contains the other, and what is noted then is what the name stands for. So a name
can be given out again if a bean was noted as contained under it while it was an alias, and the alias is
dropped afterwards (`Operation.Uncovers`). Otherwise no name is given out twice
(`nested_names_apart`).
-/

namespace Injector

namespace State

variable {state : State} {name : String}

/-! ## What makes a name used for good -/

theorem hasDependents_iff :
    state.hasDependents name = true ↔ ∃ dependent, Links state.dependents name dependent := by
  unfold hasDependents Links linksOf
  cases state.dependents.find? name with
  | none => simp
  | some names => simp [NameSet.isEmpty, List.eq_nil_iff_forall_not_mem]

/-- A bean that something depends on stays such a bean while links grow. -/
theorem LinksGrow.hasDependents {after : State} (h : LinksGrow state.dependents after.dependents)
    (hused : state.hasDependents name = true) : after.hasDependents name = true := by
  obtain ⟨dependent, hlink⟩ := hasDependents_iff.mp hused
  exact hasDependents_iff.mpr ⟨dependent, (h.names name).subset hlink⟩

/-- A name that is no alias is used once something is noted to depend on it. -/
theorem hasDependents_noteDependent (h : state.aliases.contains name = false) (dependent : String) :
    (state.noteDependent name dependent).hasDependents name = true := by
  have hlink := links_noteDependent state name dependent
  rw [canonicalName_of_end ((Table.find?_eq_none_iff _ _).mpr h)] at hlink
  exact hasDependents_iff.mpr ⟨dependent, hlink⟩

/-- Whatever name a bean was noted as contained under, it is used for good, or it is an alias. -/
def ContainedInUse (state : State) : Prop :=
  ∀ outer inner, inner ∈ state.containedIn outer →
    state.hasDependents inner = true ∨ state.aliases.contains inner = true

theorem ContainedInUse.of_grown {after : State} (h : state.ContainedInUse)
    (hcontained : after.contained = state.contained) (haliases : after.aliases = state.aliases)
    (hdependents : LinksGrow state.dependents after.dependents) : after.ContainedInUse := by
  intro outer inner hinner
  rw [containedIn_congr hcontained] at hinner
  rw [haliases]
  exact (h outer inner hinner).imp_left hdependents.hasDependents

/-- Noting that a bean contains another one leaves every contained name used, since the other one's name
is an alias or is noted itself. -/
theorem ContainedInUse.noteContained (h : state.ContainedInUse) (inner outer : String) :
    (state.noteContained inner outer).ContainedInUse := by
  intro outer' inner' hmem
  have haliases := (Framed.noteContained state inner outer).sources.2
  have hdependents := (Framed.noteContained state inner outer).dependents
  rw [haliases]
  by_cases hold : inner' ∈ state.containedIn outer'
  · exact (h outer' inner' hold).imp_left hdependents.hasDependents
  · obtain ⟨hnew, rfl, rfl⟩ := noteContained_new hold hmem
    cases halias : state.aliases.contains inner' with
    | true => exact .inr rfl
    | false =>
      rw [hnew]
      refine .inl (hasDependents_noteDependent ?_ _)
      exact halias

/-- A name that was not in use is used for good once a bean is noted to contain a bean of that name. -/
theorem ContainedInUse.hasDependents_noteContained (h : state.ContainedInUse) {inner : String}
    (hfree : state.isNameInUse inner = false) (outer : String) :
    (state.noteContained inner outer).hasDependents inner = true := by
  simp only [isNameInUse, Bool.or_eq_false_iff] at hfree
  obtain ⟨⟨halias, -⟩, hdependents⟩ := hfree
  unfold State.noteContained
  split
  · next hlinked =>
    -- it was noted as contained before, so it would be in use
    rcases h outer inner (linked_iff.mp hlinked) with hused | hused
    · rw [hdependents] at hused
      cases hused
    · rw [halias] at hused
      cases hused
  · refine hasDependents_noteDependent ?_ outer
    exact halias

end State

/-! ## The names that were given -/

/-- The name that a nested bean of a container was given. -/
def Event.naming? (index : Nat) : Event → Option String
  | .named registry _ name => if registry = index then some name else none
  | _ => none

/-- The state has the same aliases and links. -/
def State.SameLinks (state after : State) : Prop :=
  after.aliases = state.aliases ∧ after.dependents = state.dependents ∧
    after.contained = state.contained

namespace World

/-- The names that nested beans of a container were given, latest first. -/
def namesGiven (world : World) (index : Nat) : List String :=
  world.journal.filterMap (Event.naming? index)

/-- No container gave a name twice, every name that was given is used for good, and so is every name
under which a bean was noted as contained, unless it is an alias. -/
structure NamesApart (world : World) : Prop where
  nodup : ∀ index, (world.namesGiven index).Nodup
  used : ∀ index, ∀ name ∈ world.namesGiven index, (world.state index).hasDependents name = true
  contained : ∀ index, (world.state index).ContainedInUse

namespace NamesApart

variable {world after : World}

theorem of_same (h : world.NamesApart) (hsame : Statewise State.SameLinks world after)
    (hgiven : ∀ index, after.namesGiven index = world.namesGiven index) : after.NamesApart where
  nodup index := hgiven index ▸ h.nodup index
  used index name hname := by
    rw [hgiven] at hname
    rw [State.hasDependents_congr (hsame index).2.1]
    exact h.used index name hname
  contained index :=
    (h.contained index).of_grown (hsame index).2.2 (hsame index).1 ((hsame index).2.1 ▸ .refl _)

/-- Something is noted that is no name of a nested bean. -/
theorem noting (h : world.NamesApart) {event : Event} (hevent : ∀ index, event.naming? index = none) :
    (world.noting event).NamesApart :=
  h.of_same (fun _ => ⟨rfl, rfl, rfl⟩) fun index =>
    List.filterMap_cons_none (hevent index)

/-- A state may change if links only grow and what is contained stays in use. -/
theorem withState (h : world.NamesApart) {index : Nat} {state : State}
    (hcontained : state.ContainedInUse)
    (hgrows : State.LinksGrow (world.state index).dependents state.dependents) :
    (world.withState index state).NamesApart where
  nodup := h.nodup
  used other name hname := by
    rw [state_withState]
    split
    · next he => exact hgrows.hasDependents (he ▸ h.used other name hname)
    · exact h.used other name hname
  contained := forall_state_withState h.contained hcontained

theorem withSame (h : world.NamesApart) {index : Nat} {state : State}
    (hsame : (world.state index).SameLinks state) : (world.withState index state).NamesApart :=
  h.of_same (Statewise.withState (fun _ => ⟨rfl, rfl, rfl⟩) hsame) fun _ => rfl

theorem keepMerged (h : world.NamesApart) (additions : List (Nat × String × Definition)) :
    (world.keepMerged additions).NamesApart := by
  refine h.of_same (Statewise.keepMerged (fun _ => ⟨rfl, rfl, rfl⟩) ?_ (fun _ _ _ => ⟨rfl, rfl, rfl⟩)
    additions world) fun index => ?_
  · exact fun _ _ _ hab hbc =>
      ⟨hbc.1.trans hab.1, hbc.2.1.trans hab.2.1, hbc.2.2.trans hab.2.2⟩
  · unfold namesGiven
    rw [journal_keepMerged]

/-- **A nested bean is named apart from all others**, if it is noted to be contained next. -/
theorem name (h : world.NamesApart) (index : Nat) (wanted outer : String) :
    ((world.noting (.named index wanted ((world.state index).freeName wanted))).withState index
      ((world.state index).noteContained ((world.state index).freeName wanted) outer)).NamesApart := by
  have hfree := (world.state index).not_inUse_freeName wanted
  have hused := (h.contained index).hasDependents_noteContained hfree outer
  have hgrows := (State.Framed.noteContained (world.state index)
    ((world.state index).freeName wanted) outer).dependents
  generalize (world.state index).freeName wanted = name at *
  have hgiven : ∀ other, ((world.noting (.named index wanted name)).withState index
      ((world.state index).noteContained name outer)).namesGiven other =
        if index = other then name :: world.namesGiven other else world.namesGiven other := by
    intro other
    show List.filterMap (Event.naming? other) (.named index wanted name :: world.journal) = _
    rw [List.filterMap_cons, Event.naming?]
    by_cases he : index = other <;> simp [he, namesGiven]
  refine ⟨fun other => ?_, fun other given hname => ?_, ?_⟩
  · rw [hgiven]
    split
    · next he =>
      subst he
      refine List.nodup_cons.mpr ⟨fun hmem => ?_, h.nodup index⟩
      -- a name that was given before has dependents, and this one is free
      simp only [State.isNameInUse, Bool.or_eq_false_iff] at hfree
      have := h.used index name hmem
      rw [hfree.2] at this
      cases this
    · exact h.nodup other
  · rw [state_withState]
    rw [hgiven] at hname
    by_cases he : other = index
    · subst he
      rw [if_pos rfl] at hname ⊢
      rcases List.mem_cons.mp hname with rfl | hold
      · exact hused
      · exact hgrows.hasDependents (h.used other given hold)
    · rw [if_neg (Ne.symm he)] at hname
      rw [if_neg he]
      exact h.used other given hname
  · exact forall_state_withState h.contained ((h.contained index).noteContained name outer)

end NamesApart

variable {family : Family}

/-- **All work of containers, apart from naming nested beans, keeps the names apart.** -/
theorem engine_namesApart (family : Family) :
    Engine family fun _ work =>
      work.Keeps fun world after => world.NamesApart → after.NamesApart where
  toCompositional := Work.compositional_preserves _
  served _ _ _ _ h := h.noting fun _ => rfl
  learn owner steps lesson world h := by
    cases owner with
    | nothing => exact h
    | bench => exact h.of_same (fun _ => ⟨rfl, rfl, rfl⟩) fun _ => rfl
    | merged index name => exact h.withSame ⟨rfl, rfl, rfl⟩
  noteDependent {registry _} _ name dependent := Work.keeps_update fun world h => by
    have hframed := State.Framed.noteDependent (world.state registry.index) name dependent
    refine h.withState ((h.contained _).of_grown ?_ hframed.sources.2 hframed.dependents)
      hframed.dependents
    obtain ⟨dependents, dependencies, heq⟩ :=
      Work.noteDependent_eq (world.state registry.index) name dependent
    rw [heq]
  noteContained {registry _} _ inner outer := Work.keeps_update fun world h =>
    h.withState ((h.contained _).noteContained inner outer)
      (State.Framed.noteContained (world.state registry.index) inner outer).dependents
  merged _ _ := Work.keeps_takeMerged (fun _ h => h) fun _ merged _ h => h.keepMerged merged.additions
  mergedNested _ _ _ _ := Work.keeps_takeMerged (fun _ h => h) fun _ merged _ h =>
    h.keepMerged merged.additions
  construct _ _ _ _ _ := Work.keeps_construct fun _ _ _ h =>
    h.of_same (fun _ => ⟨rfl, rfl, rfl⟩) fun _ => rfl
  product _ _ _ _ _ := by
    refine Work.keeps_productOf (fun _ h => h) (fun _ _ _ hab hbc h => hbc (hab h)) ?_ ?_ ?_
    · exact Work.keeps_newProduct (fun _ _ _ hab hbc h => hbc (hab h))
        (fun _ _ _ h => h.of_same (fun _ => ⟨rfl, rfl, rfl⟩) fun _ => rfl) fun _ _ h =>
          h.noting fun _ => rfl
    · exact fun _ _ h => h.withSame ⟨rfl, rfl, rfl⟩
    · exact fun _ _ _ h => h.noting fun _ => rfl
  guarded _ _ _ hwork :=
    Work.keeps_guarded (fun _ h => h) (fun _ _ _ hab hbc h => hbc (hab h)) hwork fun _ _ h =>
      h.withSame ⟨rfl, rfl, rfl⟩
  singletonOr _ _ _ hcreate :=
    Work.keeps_singletonOr (fun _ h => h) (fun _ _ _ hab hbc h => hbc (hab h)) hcreate fun _ _ h =>
      h.withSame ⟨rfl, rfl, rfl⟩

/-- Naming a nested bean and noting it to be contained keeps the names apart. -/
theorem keeps_naming (registry : Registry) (wanted outer : String) :
    (registry.freeName wanted >>= fun given => registry.noteContained given outer >>= fun _ =>
      pure given).Keeps fun world after => world.NamesApart → after.NamesApart :=
  fun _ h => h.name registry.index wanted outer

/-- **Making nested beans keeps the names apart.** -/
theorem nesting_namesApart {handler : Handler}
    (hh : handler.Within family fun _ work =>
      work.Keeps fun world after => world.NamesApart → after.NamesApart) :
    handler.Nesting family fun _ work =>
      work.Keeps fun world after => world.NamesApart → after.NamesApart := by
  have hK := engine_namesApart family
  rintro member depth ⟨provider, beanName, definition, converter, owner⟩ hr path inner
  cases hr
  have hgrants := hK.provider_grants hh.1 member.has depth
  refine hK.bind (hK.explain _ (hK.mergedNested member.has _ _ _)) fun merged =>
    hK.explain _ (hK.bind ?_ fun _ => hK.pure _)
  rw [Resolution.build_eq]
  have hrest : ∀ given, (Resolution.buildNamed ⟨_, beanName, definition, converter, owner⟩ given
      merged).Keeps fun world after => world.NamesApart → after.NamesApart := fun given =>
    Resolution.buildNamed_mem hK.toComposable hgrants (hh.2 member.chain given merged member.has)
  split
  · -- the name is given and noted at once
    have := hK.bind (keeps_naming member.registry inner.1 beanName) hrest
    simpa only [bind_assoc, pure_bind] using this
  · exact hK.bind (hK.pure _) fun given =>
      hK.bind (hK.noteContained member.has _ _) fun _ => hrest given

/-- Asking keeps the names apart. -/
theorem NamesApart.answer {world : World} (h : world.NamesApart) (member : family.Member) (depth : Nat)
    (inquiry : Inquiry) :
    (inquiry.answer depth member.registry member.ancestors world).2.NamesApart := by
  have hK := engine_namesApart family
  have hserve := hK.serve_within (fun _ => nesting_namesApart) depth
  exact hK.answer hK.toCompositional hserve (nesting_namesApart hserve) member.has
    (fun _ _ h => h.of_same (fun _ => ⟨rfl, rfl, rfl⟩) fun _ => rfl) inquiry world h

end World

/-! ## Runs -/

variable {family : Family}

/-- Registering notes nothing about which bean depends on which. -/
theorem Registry.take_links (registry : Registry) (registration : Registration) :
    (registry.take registration).Keeps (Statewise fun state after =>
      after.dependents = state.dependents ∧ after.dependencies = state.dependencies ∧
        after.contained = state.contained) := by
  refine Registry.take_statewise (fun _ => ⟨rfl, rfl, rfl⟩) ?_ ?_ ?_ ?_ ?_ registration
  · exact fun _ _ _ hab hbc => ⟨hbc.1.trans hab.1, hbc.2.1.trans hab.2.1, hbc.2.2.trans hab.2.2⟩
  · intro name definition state after hok
    obtain ⟨-, -, rfl⟩ := State.define_eq_ok_iff.mp hok
    exact ⟨rfl, rfl, rfl⟩
  · intro name shorthand state after hok
    rcases State.addAlias_eq_ok hok with ⟨-, rfl⟩ | ⟨-, rfl⟩ | ⟨-, -, -, -, rfl⟩ <;>
      exact ⟨rfl, rfl, rfl⟩
  · intro name state after hok
    obtain ⟨-, rfl⟩ := State.remove_eq_ok_iff.mp hok
    exact ⟨rfl, rfl, rfl⟩
  · intro name value state after hok
    obtain ⟨-, rfl⟩ := State.addSingleton_eq_ok_iff.mp hok
    exact ⟨rfl, rfl, rfl⟩

/-- The operation drops an alias under which a bean was noted as contained, and nothing is noted to
depend on a bean of that very name. -/
def Operation.Uncovers (world : World) : Operation family → Prop
  | .register member registration => ∃ outer inner,
      inner ∈ (world.state member.registry.index).containedIn outer ∧
      (world.state member.registry.index).hasDependents inner = false ∧
      (((Operation.register member registration).next world).state
        member.registry.index).aliases.contains inner = false
  | .inquire _ _ _ => False

/-- One operation keeps the names apart exactly if it uncovers none. -/
theorem Operation.namesApart_next_iff {world : World} (h : world.NamesApart)
    (operation : Operation family) :
    (operation.next world).NamesApart ↔ ¬ operation.Uncovers world := by
  cases operation with
  | inquire member depth inquiry => exact iff_of_true (h.answer member depth inquiry) id
  | register member registration =>
    -- registering gives no name and notes no link, so all that matters is which aliases are dropped
    have hjournal : ((Operation.register member registration).next world).journal = world.journal :=
      member.registry.take_journal registration world
    have hlinks : Statewise _ world ((Operation.register member registration).next world) :=
      member.registry.take_links registration world
    have hused : ∀ index name,
        (((Operation.register member registration).next world).state index).hasDependents name =
          (world.state index).hasDependents name :=
      fun index => State.hasDependents_congr (hlinks index).1
    have hcontained : ∀ index outer,
        (((Operation.register member registration).next world).state index).containedIn outer =
          (world.state index).containedIn outer :=
      fun index => State.containedIn_congr (hlinks index).2.2
    constructor
    · rintro hnext ⟨outer, inner, hmem, hunused, hdropped⟩
      rcases hnext.contained member.registry.index outer inner (by rwa [hcontained]) with
        hstill | hstill
      · rw [hused, hunused] at hstill
        cases hstill
      · rw [hdropped] at hstill
        cases hstill
    · intro hcovers
      refine ⟨fun index => ?_, fun index name hname => ?_, fun index outer inner hmem => ?_⟩
      · unfold World.namesGiven
        rw [hjournal]
        exact h.nodup index
      · unfold World.namesGiven at hname
        rw [hjournal] at hname
        rw [hused]
        exact h.used index name hname
      · rw [hcontained] at hmem
        rw [hused]
        by_cases hindex : index = member.registry.index
        · subst hindex
          cases hunused : (world.state member.registry.index).hasDependents inner with
          | true => exact .inl rfl
          | false =>
            refine .inr (Bool.of_not_eq_false fun hdropped => ?_)
            exact hcovers ⟨outer, inner, hmem, hunused, hdropped⟩
        · have hsame : ((Operation.register member registration).next world).state index =
              world.state index := Registry.take_elsewhere hindex registration world
          rw [hsame]
          exact h.contained index outer inner hmem

/-- **Names of nested beans are kept apart all along a run exactly if no operation of the run drops an
alias under which a bean was noted as contained.** And whenever a name without a mark is given, or one
with a number behind it, no definition, no alias and no singleton of the container has the name. -/
theorem nested_names_apart (operations : List (Operation family)) :
    ((∀ done, done <+: operations → (World.after done).NamesApart) ↔
      ∀ done operation, done ++ [operation] <+: operations →
        ¬ operation.Uncovers (World.after done)) ∧
    ∀ (registry : Registry) (world : World) (wanted : String), asksForFactory wanted = false →
      ∃ given, registry.freeName wanted world =
          (.ok given, world.noting (.named registry.index wanted given)) ∧
        (world.state registry.index).aliases.contains given = false ∧
        (world.state registry.index).singletons.contains given = false ∧
        (world.state registry.index).definitions.contains given = false := by
  constructor
  · refine forall_prefix_iff (P := World.NamesApart) ⟨fun _ => List.nodup_nil, fun _ _ hname => ?_, fun _ _ _ hmem => ?_⟩
      (fun _ operation _ h => operation.namesApart_next_iff h) operations
    · cases hname
    · cases hmem
  · intro registry world wanted hplain
    have hfree := (world.state registry.index).not_inUse_freeName wanted
    obtain ⟨count, hcount⟩ := (world.state registry.index).freeName_eq wanted
    refine ⟨_, rfl, State.unbound_of_not_inUse ?_ hfree⟩
    rw [hcount]
    exact State.plain_numberedName hplain count

/-! ### A name that is given twice -/

/-- A bean that contains another one, named `x`. -/
def twiceOuter : Definition where
  className := some "P"
  properties := [("p", .holder "x" [] { className := some "P" })]

/-- While `x` is an alias, `o` is noted to contain it. Then the alias is dropped, and two beans are had
that contain a bean named `x`, the first of them being `o`. -/
def twiceOperations : List (Operation (Family.lone plainRegistry)) :=
  let member := Registry.lone plainRegistry
  [.register member (.shorthand "y" "x"), .inquire member 0 (.contained "x" "o"),
    .register member (.shorthand "x" "x"), .register member (.definition "o" twiceOuter),
    .register member (.definition "u" twiceOuter), .inquire member 2 (.bean "o"),
    .inquire member 2 (.bean "u")]

/-- Both of the nested beans are named `x`. -/
theorem not_nodup_namesGiven_twice : ¬ ((World.after twiceOperations).namesGiven 0).Nodup := by
  have hgiven : (World.after twiceOperations).namesGiven 0 = ["x", "x"] := by decide +kernel
  rw [hgiven]
  decide

end Injector
