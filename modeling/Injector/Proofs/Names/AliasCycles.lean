import Injector.Proofs.Requests.StateRelations
import Mathlib.Data.List.Nodup
import Mathlib.Logic.Relation

/-!
# Aliases that go in a circle

An alias stands for a name, which may be an alias again. As long as no alias leads back to itself,
following a name ends at a name that is no alias, and it ends within as many steps as there are aliases,
so the limit on the number of steps is never what ends it (`settled_iff_acyclic`).

Taking an alias is refused if its name ends at the alias already. That looks at the end of the chain
alone. An alias in the middle of the chain may be bound to another name if overriding is allowed, and
if the chain of that very name leads through it, the circle closes. Nothing else closes one
(`acyclic_addAlias_iff`), and so a run keeps the aliases of all containers in order exactly as long as
it does not do this (`settled_iff_not_closesRing`).
-/

namespace Injector

open Relation

/-! ## Chains of aliases -/

/-- The first name is an alias for the second. -/
def Hop (aliases : Table String) (name target : String) : Prop :=
  aliases.find? name = some target

/-- No alias leads back to itself. -/
def Acyclic (aliases : Table String) : Prop :=
  ∀ name, ¬ TransGen (Hop aliases) name name

theorem Hop.unique {aliases : Table String} {name target target' : String}
    (h : Hop aliases name target) (h' : Hop aliases name target') : target = target' :=
  Option.some.inj (h.symm.trans h')

theorem acyclic_empty : Acyclic .empty := by
  intro name h
  obtain ⟨target, hhop, -⟩ := TransGen.head'_iff.mp h
  cases hhop

/-- A table with fewer hops has no more circles. -/
theorem Acyclic.mono {aliases aliases' : Table String} (h : Acyclic aliases)
    (hsub : ∀ name target, Hop aliases' name target → Hop aliases name target) : Acyclic aliases' :=
  fun name hring => h name (TransGen.mono hsub _ _ hring)

theorem Acyclic.erase {aliases : Table String} (h : Acyclic aliases) (name : String) :
    Acyclic (aliases.erase name) := by
  refine h.mono fun other target hhop => ?_
  unfold Hop at hhop
  rw [Table.find?_erase] at hhop
  split at hhop
  · cases hhop
  · exact hhop

/-! ## Binding an alias -/

/-- What leads to a name does so without the hop from that name. -/
theorem reflTransGen_hop_congr {aliases aliases' : Table String} {name last : String}
    (hsame : ∀ other, other ≠ last → aliases'.find? other = aliases.find? other)
    (h : ReflTransGen (Hop aliases) name last) : ReflTransGen (Hop aliases') name last := by
  induction h using ReflTransGen.head_induction_on with
  | refl => exact .refl
  | @head other next hhop _ ih =>
    by_cases he : other = last
    · rw [he]
    · exact .head ((hsame other he).trans hhop) ih

theorem find?_insert_ne {aliases : Table String} {shorthand name other : String}
    (h : other ≠ shorthand) : (aliases.insert shorthand name).find? other = aliases.find? other := by
  rw [Table.find?_insert, if_neg h]

theorem hop_insert_self (aliases : Table String) (shorthand name : String) :
    Hop (aliases.insert shorthand name) shorthand name := by
  unfold Hop
  rw [Table.find?_insert, if_pos rfl]

/-- A chain over a new alias either does without it, or leads to it and on from its name. -/
theorem transGen_hop_insert {aliases : Table String} {shorthand name first last : String}
    (h : TransGen (Hop (aliases.insert shorthand name)) first last) :
    TransGen (Hop aliases) first last ∨
      (ReflTransGen (Hop (aliases.insert shorthand name)) first shorthand ∧
        ReflTransGen (Hop (aliases.insert shorthand name)) name last) := by
  induction h using TransGen.head_induction_on with
  | @single first hhop =>
    by_cases he : first = shorthand
    · subst he
      exact Or.inr ⟨.refl, by rw [(hop_insert_self aliases first name).unique hhop]⟩
    · exact Or.inl (.single ((find?_insert_ne he).symm.trans hhop))
  | @head first next hhop hrest ih =>
    by_cases he : first = shorthand
    · subst he
      have hnext := (hop_insert_self aliases first name).unique hhop
      subst hnext
      exact Or.inr ⟨.refl, hrest.to_reflTransGen⟩
    · rcases ih with hold | ⟨hto, hon⟩
      · exact Or.inl (.head ((find?_insert_ne he).symm.trans hhop) hold)
      · exact Or.inr ⟨.head hhop hto, hon⟩

/-- **Binding an alias closes a circle exactly if its name leads to it.** -/
theorem acyclic_insert_iff {aliases : Table String} (h : Acyclic aliases) (shorthand name : String) :
    Acyclic (aliases.insert shorthand name) ↔ ¬ ReflTransGen (Hop aliases) name shorthand := by
  constructor
  · intro hnew hleads
    have hleads' : ReflTransGen (Hop (aliases.insert shorthand name)) name shorthand :=
      reflTransGen_hop_congr (fun _ he => find?_insert_ne he) hleads
    exact hnew shorthand (.head' (hop_insert_self aliases shorthand name) hleads')
  · intro hleads other hring
    rcases transGen_hop_insert hring with hold | ⟨hto, hon⟩
    · exact h other hold
    · exact hleads (reflTransGen_hop_congr (fun _ he => (find?_insert_ne he).symm) (hon.trans hto))

/-! ## Following a name -/

namespace State

theorem follow_of_hop {aliases : Table String} {name target : String} (h : Hop aliases name target)
    (steps : Nat) : follow aliases (steps + 1) name = follow aliases steps target := by
  unfold Hop at h
  rw [follow, h]

theorem follow_add (aliases : Table String) (more : Nat) :
    ∀ (steps : Nat) (name : String),
      follow aliases (steps + more) name = follow aliases more (follow aliases steps name)
  | 0, name => by rw [Nat.zero_add]; rfl
  | steps + 1, name => by
    rw [Nat.add_right_comm]
    cases h : aliases.find? name with
    | none => rw [follow_of_end h, follow_of_end h, follow_of_end h]
    | some target => rw [follow_of_hop h, follow_of_hop h, follow_add aliases more steps target]

/-- A name leads to wherever following it gets. -/
theorem reflTransGen_follow (aliases : Table String) :
    ∀ (steps : Nat) (name : String), ReflTransGen (Hop aliases) name (follow aliases steps name)
  | 0, _ => .refl
  | steps + 1, name => by
    cases h : aliases.find? name with
    | none => rw [follow_of_end h]
    | some target =>
      rw [follow_of_hop h]
      exact .head h (reflTransGen_follow aliases steps target)

/-- As long as an alias is reached, every further step leads on. -/
theorem transGen_follow {aliases : Table String} {name : String} {steps : Nat}
    (h : aliases.find? (follow aliases steps name) ≠ none) (more : Nat) :
    TransGen (Hop aliases) (follow aliases steps name) (follow aliases (steps + (more + 1)) name) := by
  obtain ⟨target, hhop⟩ := Option.ne_none_iff_exists'.mp h
  rw [follow_add, follow_of_hop hhop]
  exact .head' hhop (reflTransGen_follow aliases more target)

/-- Where following has ended it does not go on. -/
theorem find?_follow_of_le {aliases : Table String} {name : String} {steps later : Nat}
    (hle : steps ≤ later) (h : aliases.find? (follow aliases steps name) = none) :
    aliases.find? (follow aliases later name) = none := by
  obtain ⟨more, rfl⟩ := Nat.exists_eq_add_of_le hle
  rw [follow_add, follow_of_end h]
  exact h

/--
Without circles, following a name ends within as many steps as there are aliases.

Otherwise the names on the way would all be aliases, and all different.
-/
theorem find?_follow_size {aliases : Table String} (h : Acyclic aliases) (name : String) :
    aliases.find? (follow aliases aliases.size name) = none := by
  by_contra hend
  have halias : ∀ steps ≤ aliases.size, aliases.find? (follow aliases steps name) ≠ none :=
    fun steps hle hnone => hend (find?_follow_of_le hle hnone)
  have hne : ∀ steps more, steps + (more + 1) ≤ aliases.size →
      follow aliases steps name ≠ follow aliases (steps + (more + 1)) name := by
    intro steps more hle he
    have hring := transGen_follow (halias steps (by omega)) more
    rw [← he] at hring
    exact h _ hring
  -- one name more than there are aliases
  have hnodup : ((List.range (aliases.size + 1)).map fun steps =>
      follow aliases steps name).Nodup := by
    refine List.Nodup.map_on ?_ List.nodup_range
    intro first hfirst second hsecond he
    rw [List.mem_range] at hfirst hsecond
    rcases Nat.lt_trichotomy first second with hlt | heq | hlt
    · obtain ⟨more, rfl⟩ := Nat.exists_eq_add_of_lt hlt
      exact absurd he (hne first more (by omega))
    · exact heq
    · obtain ⟨more, rfl⟩ := Nat.exists_eq_add_of_lt hlt
      exact absurd he.symm (hne second more (by omega))
  have hsub : ((List.range (aliases.size + 1)).map fun steps =>
      follow aliases steps name) ⊆ aliases.keys := by
    intro other hother
    obtain ⟨steps, hsteps, rfl⟩ := List.mem_map.mp hother
    rw [List.mem_range] at hsteps
    rw [← Table.contains_iff_mem_keys, Table.contains, Option.isSome_iff_ne_none]
    exact halias steps (by omega)
  have hlen := hnodup.length_le_of_subset hsub
  simp only [List.length_map, List.length_range, Table.keys, Table.size] at hlen
  omega

/-- The limit on the number of steps ends the search for the name that a name stands for. -/
def GivesUp (state : State) (name : String) : Prop :=
  state.aliases.contains (follow state.aliases state.aliases.size name) = true

/-- Following names comes to an end: no alias leads back to itself, no name stands for an alias in the
end, what a name stands for stands for itself, and the search is never given up. -/
structure Settled (state : State) : Prop where
  acyclic : Acyclic state.aliases
  not_alias : ∀ name, state.aliases.contains (state.canonicalName name) = false
  canonicalName_idem : ∀ name,
    state.canonicalName (state.canonicalName name) = state.canonicalName name
  not_givesUp : ∀ name, ¬ state.GivesUp name

variable {state : State}

theorem find?_canonicalName (h : Acyclic state.aliases) (name : String) :
    state.aliases.find? (state.canonicalName name) = none :=
  find?_follow_of_le (Nat.le_succ _) (find?_follow_size h name)

/-- It is all a matter of circles. -/
theorem settled_iff_acyclic : state.Settled ↔ Acyclic state.aliases := by
  refine ⟨Settled.acyclic, fun h => ⟨h, fun name => ?_, fun name => ?_, fun name hgives => ?_⟩⟩
  · exact (Table.find?_eq_none_iff _ _).mp (find?_canonicalName h name)
  · exact canonicalName_of_end (find?_canonicalName h name)
  · rw [GivesUp, Table.contains, find?_follow_size h] at hgives
    cases hgives

/-- A name leads to no other end than the name that it stands for. -/
theorem canonicalName_eq_of_leads (h : Acyclic state.aliases) {name last : String}
    (hleads : ReflTransGen (Hop state.aliases) name last)
    (hend : state.aliases.find? last = none) : state.canonicalName name = last := by
  have hcanonical := find?_canonicalName h name
  have hfollow := reflTransGen_follow state.aliases (state.aliases.size + 1) name
  change ReflTransGen _ name (state.canonicalName name) at hfollow
  -- the two chains from the name take the same hops, and neither can end before the other
  generalize state.canonicalName name = canonical at hcanonical hfollow
  induction hleads using ReflTransGen.head_induction_on with
  | refl =>
    rcases hfollow.cases_head with he | ⟨next, hhop, -⟩
    · exact he.symm
    · cases hend.symm.trans hhop
  | head hhop _ ih =>
    rcases hfollow.cases_head with he | ⟨next, hhop', hrest⟩
    · subst he
      cases hcanonical.symm.trans hhop
    · rw [hhop'.unique hhop] at hrest
      exact ih hrest

/-! ## Taking an alias -/

/-- No alias has the name of a definition. -/
def AliasesUndefined (state : State) : Prop :=
  ∀ name, state.aliases.contains name = true → state.definitions.contains name = false

/-- The alias is bound already, may be bound anew, and is passed on the way from the name. -/
def ClosesRing (state : State) (settings : Settings) (name shorthand : String) : Prop :=
  settings.allowOverriding = true ∧ state.aliases.contains shorthand = true ∧
    TransGen (Hop state.aliases) name shorthand

/-- Such an alias is not refused. -/
theorem addAlias_of_closesRing {settings : Settings} {name shorthand : String}
    (hundefined : state.AliasesUndefined) (h : Acyclic state.aliases)
    (hcloses : state.ClosesRing settings name shorthand) :
    addAlias settings name shorthand state =
      .ok { state with aliases := state.aliases.insert shorthand name } := by
  obtain ⟨hallowed, hbound, hleads⟩ := hcloses
  obtain ⟨existing, hexisting⟩ := (Table.contains_iff_find? _ _).mp hbound
  refine addAlias_of_override ?_ (hundefined _ hbound) ?_ hexisting ?_ hallowed
  · rintro rfl
    exact h _ hleads
  · intro he
    have hend := find?_canonicalName h name
    rw [he, hexisting] at hend
    cases hend
  · rintro rfl
    exact h _ (.head hexisting hleads)

/-- **Taking an alias keeps the aliases without circles exactly if it closes no ring.** -/
theorem acyclic_addAlias_iff {settings : Settings} {name shorthand : String}
    (hundefined : state.AliasesUndefined) (h : Acyclic state.aliases) :
    (∀ after, addAlias settings name shorthand state = .ok after → Acyclic after.aliases) ↔
      ¬ state.ClosesRing settings name shorthand := by
  constructor
  · intro hkeeps hcloses
    have hafter := hkeeps _ (addAlias_of_closesRing hundefined h hcloses)
    exact (acyclic_insert_iff h shorthand name).mp hafter hcloses.2.2.to_reflTransGen
  · intro hcloses after hok
    rcases addAlias_eq_ok hok with ⟨-, rfl⟩ | ⟨-, rfl⟩ | ⟨hself, -, hend, hallowed, rfl⟩
    · exact h.erase shorthand
    · exact h
    · refine (acyclic_insert_iff h shorthand name).mpr fun hleads => ?_
      cases hbound : state.aliases.find? shorthand with
      | none =>
        -- a chain to a name that is no alias ends there, and that is refused
        exact hend (canonicalName_eq_of_leads h hleads hbound)
      | some existing =>
        have hbound' : state.aliases.contains shorthand = true := Table.contains_of_find? hbound
        rcases reflTransGen_iff_eq_or_transGen.mp hleads with he | hpast
        · exact hself he
        · exact hcloses ⟨hallowed hbound', hbound', hpast⟩

/-- A name that is no alias leads nowhere, so aliases for it close no ring, and it stays no alias. -/
theorem addAlias_of_end {settings : Settings} {name shorthand : String} {after : State}
    (h : Acyclic state.aliases) (hend : state.aliases.find? name = none)
    (hok : addAlias settings name shorthand state = .ok after) :
    Acyclic after.aliases ∧ after.aliases.find? name = none := by
  rcases addAlias_eq_ok hok with ⟨-, rfl⟩ | ⟨-, rfl⟩ | ⟨hself, -, -, -, rfl⟩
  · refine ⟨h.erase shorthand, ?_⟩
    rw [Table.find?_erase, hend, ite_self]
  · exact ⟨h, hend⟩
  · refine ⟨(acyclic_insert_iff h shorthand name).mpr fun hleads => ?_, ?_⟩
    · rcases hleads.cases_head with he | ⟨next, hhop, -⟩
      · exact hself he.symm
      · cases hend.symm.trans hhop
    · rw [find?_insert_ne (Ne.symm hself)]
      exact hend

/-! ## Aliases are no definitions -/

/-- Fewer aliases for fewer definitions are none of them either. -/
theorem AliasesUndefined.mono {after : State} (h : state.AliasesUndefined)
    (haliases : ∀ name, after.aliases.contains name = true → state.aliases.contains name = true)
    (hdefinitions : ∀ name, after.definitions.contains name = true →
      state.definitions.contains name = true) : after.AliasesUndefined := by
  intro name hbound
  rw [Bool.eq_false_iff]
  intro hdefined
  have hbefore : state.definitions.contains name = false := h name (haliases name hbound)
  rw [hdefinitions name hdefined] at hbefore
  cases hbefore

theorem AliasesUndefined.define {settings : Settings} {name : String} {definition : Definition}
    {after : State} (h : state.AliasesUndefined)
    (hok : State.define settings name definition state = .ok after) : after.AliasesUndefined := by
  obtain ⟨-, -, rfl⟩ := define_eq_ok_iff.mp hok
  intro other hbound
  obtain ⟨hother, hbound⟩ := (Table.contains_erase_iff _ _ _).mp hbound
  rw [Bool.eq_false_iff]
  intro hdefined
  rcases (Table.contains_insert_iff _ _ _ _).mp hdefined with he | hdefined
  · exact hother he
  · rw [h other hbound] at hdefined
    cases hdefined

theorem AliasesUndefined.addAlias {settings : Settings} {name shorthand : String} {after : State}
    (h : state.AliasesUndefined)
    (hok : State.addAlias settings name shorthand state = .ok after) : after.AliasesUndefined := by
  rcases addAlias_eq_ok hok with ⟨-, rfl⟩ | ⟨-, rfl⟩ | ⟨-, hundefined, -, -, rfl⟩
  · exact h.mono (fun other hbound => ((Table.contains_erase_iff _ _ _).mp hbound).2) fun _ hd => hd
  · exact h
  · intro other hbound
    rcases (Table.contains_insert_iff _ _ _ _).mp hbound with rfl | hbound
    · exact hundefined
    · exact h other hbound

theorem AliasesUndefined.remove {name : String} {after : State} (h : state.AliasesUndefined)
    (hok : State.remove name state = .ok after) : after.AliasesUndefined := by
  obtain ⟨-, rfl⟩ := remove_eq_ok_iff.mp hok
  exact h.mono (fun _ hbound => hbound) fun other hdefined =>
    ((Table.contains_erase_iff _ _ _).mp hdefined).2

end State

/-! ## Runs -/

variable {family : Family}

/-- No alias of any container has the name of one of its definitions. -/
def World.AliasesUndefined (world : World) : Prop :=
  ∀ index, (world.state index).AliasesUndefined

/-- A name that is defined is no alias. -/
theorem World.AliasesUndefined.canonicalName {world : World} (h : world.AliasesUndefined) {index : Nat}
    {name : String} (hdefined : (world.state index).definitions.contains name = true) :
    (world.state index).canonicalName name = name := by
  refine State.canonicalName_of_end ((Table.find?_eq_none_iff _ _).mpr ?_)
  rw [Bool.eq_false_iff]
  intro halias
  rw [h index name halias] at hdefined
  cases hdefined

/-- No alias of any container leads back to itself. -/
def World.AliasesAcyclic (world : World) : Prop :=
  ∀ index, Acyclic (world.state index).aliases

/-- The operation binds an alias anew to a name that leads through it. -/
def Operation.ClosesRing (world : World) : Operation family → Prop
  | .register member (.shorthand name shorthand) =>
    (world.state member.registry.index).ClosesRing member.registry.settings name shorthand
  | _ => False

/-- No reachable container has an alias and a definition of one name. -/
theorem Reachable.aliasesUndefined {world : World} (h : Reachable family world) :
    world.AliasesUndefined := by
  refine Reachable.induction (P := World.AliasesUndefined) ?_ ?_ h
  · intro index name hbound
    cases hbound
  · intro world operation _ hworld
    cases operation with
    | register member registration =>
      have hkeeps : (member.registry.take registration).Keeps
          (Statewise fun state after => state.AliasesUndefined → after.AliasesUndefined) := by
        refine Registry.take_statewise (fun _ h => h) (fun _ _ _ hab hbc h => hbc (hab h))
          ?_ ?_ ?_ ?_ registration
        · exact fun _ _ _ _ hok hstate => hstate.define hok
        · exact fun _ _ _ _ hok hstate => hstate.addAlias hok
        · exact fun _ _ _ hok hstate => hstate.remove hok
        · intro name value state after hok hstate
          obtain ⟨-, rfl⟩ := State.addSingleton_eq_ok_iff.mp hok
          exact hstate
      exact fun index => hkeeps world index (hworld index)
    | inquire member depth inquiry =>
      intro index
      obtain ⟨hdefinitions, haliases⟩ := Inquiry.sameSources member depth inquiry world index
      refine (hworld index).mono (fun name hbound => ?_) fun name hdefined => ?_
      · rw [← haliases]
        exact hbound
      · rw [← hdefinitions]
        exact hdefined

/-! ### What one operation does to circles -/

theorem World.aliasesAcyclic_register_iff {world : World} (h : world.AliasesAcyclic)
    (registry : Registry) (change : State → Except Failure State) :
    (Work.register registry change world).2.AliasesAcyclic ↔
      ∀ after, change (world.state registry.index) = .ok after → Acyclic after.aliases :=
  World.forall_state_register_iff (P := fun state => Acyclic state.aliases) h registry change

/-- A definition with aliases for its name: its name is no alias, so none of them closes a ring. -/
theorem Registry.acyclic_defineWithAliases (registry : Registry) (name : String)
    (shorthands : List String) (definition : Definition) {world : World} (h : world.AliasesAcyclic) :
    (registry.defineWithAliases name shorthands definition world).2.AliasesAcyclic := by
  have hshorthands : (shorthands.forM fun shorthand => registry.addAlias name shorthand).Keeps
      fun world after =>
        (world.AliasesAcyclic ∧ (world.state registry.index).aliases.find? name = none) →
          after.AliasesAcyclic ∧ (after.state registry.index).aliases.find? name = none := by
    refine (Work.compositional_preserves _).forM fun shorthand _ => ?_
    refine Work.keeps_register (fun _ h => h) fun world state hok ⟨hacyclic, hend⟩ => ?_
    obtain ⟨hafter, hend⟩ := State.addAlias_of_end (hacyclic _) hend hok
    refine ⟨World.forall_state_withState (P := fun state => Acyclic state.aliases) hacyclic hafter,
      ?_⟩
    rw [World.state_withState, if_pos rfl]
    exact hend
  unfold defineWithAliases define
  rw [Work.bind_apply, Work.register_apply]
  cases hok : State.define registry.settings name definition (world.state registry.index) with
  | error failure => exact h
  | ok state =>
    obtain ⟨-, -, rfl⟩ := State.define_eq_ok_iff.mp hok
    refine (hshorthands _ ⟨World.forall_state_withState (P := fun state => Acyclic state.aliases)
      h ((h _).erase name), ?_⟩).1
    rw [World.state_withState, if_pos rfl]
    exact (Table.find?_erase _ _ _).trans (if_pos rfl)

/-- One operation keeps the aliases of all containers without circles exactly if it closes no ring. -/
theorem Operation.acyclic_next_iff {world : World} (hundefined : world.AliasesUndefined)
    (h : world.AliasesAcyclic) (operation : Operation family) :
    (operation.next world).AliasesAcyclic ↔ ¬ operation.ClosesRing world := by
  cases operation with
  | inquire member depth inquiry =>
    refine iff_of_true (fun index => ?_) fun hcloses => hcloses
    obtain ⟨-, haliases⟩ := Inquiry.sameSources member depth inquiry world index
    rw [show ((Operation.inquire member depth inquiry).next world).state index = _ from rfl]
    exact haliases ▸ h index
  | register member registration =>
    cases registration with
    | shorthand name shorthand =>
      exact (World.aliasesAcyclic_register_iff h _ _).trans
        (State.acyclic_addAlias_iff (hundefined _) (h _))
    | definition name definition =>
      refine iff_of_true ((World.aliasesAcyclic_register_iff h _ _).mpr ?_) fun hcloses => hcloses
      intro after hok
      obtain ⟨-, -, rfl⟩ := State.define_eq_ok_iff.mp hok
      exact (h _).erase name
    | holder name shorthands definition =>
      exact iff_of_true (Registry.acyclic_defineWithAliases _ name shorthands definition h)
        fun hcloses => hcloses
    | removal name =>
      refine iff_of_true ((World.aliasesAcyclic_register_iff h _ _).mpr ?_) fun hcloses => hcloses
      intro after hok
      obtain ⟨-, rfl⟩ := State.remove_eq_ok_iff.mp hok
      exact h _
    | singleton name value =>
      refine iff_of_true ((World.aliasesAcyclic_register_iff h _ _).mpr ?_) fun hcloses => hcloses
      intro after hok
      obtain ⟨-, rfl⟩ := State.addSingleton_eq_ok_iff.mp hok
      exact h _

/-! ### What a run does to circles -/

/-- **Following names comes to an end in all containers all along a run exactly if no operation of the
run binds an alias anew to a name that leads through it.** -/
theorem settled_iff_not_closesRing (operations : List (Operation family)) :
    (∀ done, done <+: operations → ∀ index, ((World.after done).state index).Settled) ↔
      ∀ done operation, done ++ [operation] <+: operations →
        ¬ operation.ClosesRing (World.after done) := by
  have key := forall_prefix_iff (P := World.AliasesAcyclic)
    (fun _ => acyclic_empty)
    (fun world operation hreachable h =>
      operation.acyclic_next_iff hreachable.aliasesUndefined h) operations
  rw [← key]
  refine forall_congr' fun done => forall_congr' fun _ => forall_congr' fun index => ?_
  exact State.settled_iff_acyclic

/-! ### A ring -/

/-- The alias `a` leads to `c` through `b`, and then `b` is bound to `a`. -/
def ringOperations : List (Operation (Family.lone { index := 0 })) :=
  let member := Registry.lone { index := 0 }
  [.register member (.shorthand "c" "b"), .register member (.shorthand "b" "a"),
    .register member (.shorthand "a" "b")]

/-- The third alias is not refused, and from then on `a` stands for an alias in the end. -/
theorem not_settled_after_ring : ¬ ((World.after ringOperations).state 0).Settled := by
  intro h
  have hend := h.not_alias "a"
  have halias : ((World.after ringOperations).state 0).aliases.contains
      (((World.after ringOperations).state 0).canonicalName "a") = true := by decide
  rw [halias] at hend
  cases hend

end Injector
