import Injector.Proofs.Dependence.Recorded

/-!
# Links from both ends

A container keeps each link twice, with the bean that is depended on and with the bean that depends.
Noting a dependency looks only at the first table before it changes both, so the two tables hold the same
pairs only as long as they did before. That they do is kept by whatever is noted (`State.Counted`) and
left alone by registrations, so it holds after every run.

A nested bean that is noted to be contained is noted to be depended on in the same step, under what its
name stands for at that moment. This is not taken back either, whatever becomes of the name.
-/

namespace Injector

variable {family : Family}

namespace State

/-! ## Pairs -/

/-- The links of a table, one after the other. -/
def pairs (table : Table NameSet) : List (String × String) :=
  table.entries.flatMap fun entry => entry.2.names.map (Prod.mk entry.1)

theorem mem_pairs {table : Table NameSet} {name member : String} :
    (name, member) ∈ pairs table ↔ Links table name member := by
  unfold pairs Links linksOf
  simp only [List.mem_flatMap, List.mem_map, Prod.mk.injEq]
  constructor
  · rintro ⟨entry, hentry, other, hother, rfl, rfl⟩
    rw [Table.find?_eq_some_iff_mem.mpr hentry]
    exact hother
  · intro h
    cases hfind : table.find? name with
    | none =>
      rw [hfind] at h
      cases h
    | some names =>
      rw [hfind] at h
      exact ⟨(name, names), Table.find?_eq_some_iff_mem.mp hfind, member, h, rfl, rfl⟩

/-- No link occurs twice. -/
theorem nodup_pairs (table : Table NameSet) : (pairs table).Nodup := by
  refine List.nodup_flatMap.mpr ⟨fun entry _ => ?_, ?_⟩
  · exact entry.2.nodup.map fun _ _ heq => (Prod.mk.inj heq).2
  · -- entries differ in their names, and so do the links that come from them
    refine List.Pairwise.of_map Prod.fst (fun first second hne => ?_) table.nodup_keys
    intro link hfirst hsecond
    obtain ⟨_, _, rfl⟩ := List.mem_map.mp hfirst
    obtain ⟨_, _, heq⟩ := List.mem_map.mp hsecond
    exact hne (Prod.mk.inj heq).1.symm

/-! ## Noting -/

/-- Whatever a bean is noted to have as a dependency is noted to be depended on by it. -/
def Counted (state : State) : Prop :=
  ∀ name dependent, Links state.dependencies dependent name → Links state.dependents name dependent

theorem Counted.noteDependent {state : State} (h : state.Counted) (name dependent : String) :
    (state.noteDependent name dependent).Counted := by
  unfold State.noteDependent
  dsimp only
  split
  · exact h
  · intro other user hlink
    rcases (mem_linksOf_link _ _ _ _ _).mp hlink with ⟨rfl, rfl⟩ | hold
    · exact (mem_linksOf_link _ _ _ _ _).mpr (.inl ⟨rfl, rfl⟩)
    · exact (mem_linksOf_link _ _ _ _ _).mpr (.inr (h other user hold))

theorem Counted.noteContained {state : State} (h : state.Counted) (inner outer : String) :
    (state.noteContained inner outer).Counted := by
  unfold State.noteContained
  split
  · exact h
  · refine Counted.noteDependent ?_ inner outer
    exact h

theorem stateRelation_counted : StateRelation fun state after => state.Counted → after.Counted where
  refl _ := id
  trans _ _ _ h h' := h' ∘ h
  noteDependent _ name dependent h := h.noteDependent name dependent
  noteContained _ inner outer h := h.noteContained inner outer
  keepMerged _ _ _ := id
  learn _ _ _ := id
  inCreation _ _ := id
  keepSingleton _ _ _ := id
  keepProduct _ _ _ := id

/-- A dependency that is noted already is not noted again. -/
theorem noteDependent_of_mem {state : State} {name dependent : String}
    (h : dependent ∈ state.dependentsOf name) : state.noteDependent name dependent = state := by
  unfold State.noteDependent
  dsimp only
  rw [if_pos (linked_iff.mpr h)]

/-- A nested bean that is noted already is not noted again. -/
theorem noteContained_of_mem {state : State} {inner outer : String}
    (h : inner ∈ state.containedIn outer) : state.noteContained inner outer = state := by
  unfold State.noteContained
  rw [if_pos (linked_iff.mpr h)]

end State

/-! ## Operations -/

theorem Inquiry.counted (member : family.Member) (depth : Nat) (inquiry : Inquiry) :
    (inquiry.answer depth member.registry member.ancestors).Keeps
      (Statewise fun state after => state.Counted → after.Counted) :=
  (State.stateRelation_counted.container family).answer member.has
    (fun _ _ _ => id) depth inquiry

/-- **Whatever a bean has as a dependency is depended on by it, in every world that a run leads to.** -/
theorem Reachable.counted {world : World} (h : Reachable family world) :
    ∀ index, (world.state index).Counted := by
  refine h.of_links (P := State.Counted) (fun _ _ hlink => nomatch hlink)
    (fun state after hdependents hdependencies hbefore => ?_) Inquiry.counted
  unfold State.Counted
  rw [hdependents, hdependencies]
  exact hbefore

/-- An operation notes that a bean was made for another one. Aliases are as they were. -/
structure Operation.NotesContained (operation : Operation family) (world : World) (index : Nat)
    (inner outer : String) : Prop where
  new : inner ∉ (world.state index).containedIn outer
  contained : inner ∈ ((operation.next world).state index).containedIn outer
  aliases : ((operation.next world).state index).aliases = (world.state index).aliases

/-- What is contained after an operation was so before, or the operation notes it, and then it notes a
dependency on what the name stands for. -/
theorem Operation.contained_next (operation : Operation family) {world : World} {index : Nat}
    {inner outer : String}
    (h : inner ∈ ((operation.next world).state index).containedIn outer) :
    inner ∈ (world.state index).containedIn outer ∨
      operation.NotesContained world index inner outer ∧
        State.Links ((operation.next world).state index).dependents
          ((world.state index).canonicalName inner) outer := by
  refine or_iff_not_imp_left.mpr fun hnew => ?_
  cases operation with
  | register member registration =>
    obtain ⟨-, -, hcontained⟩ :
        ((member.registry.take registration world).2.state index).dependents = _ ∧ _ :=
      member.registry.take_links registration world index
    unfold State.containedIn Operation.next Operation.perform at h
    rw [hcontained] at h
    exact absurd h hnew
  | inquire member depth inquiry =>
    have hgrown := (inquiry.grows member depth world).1 index
    have hnoted := (hgrown.containing outer inner h).resolve_left hnew
    unfold State.Noted at hnoted
    rw [hgrown.canonicalName] at hnoted
    exact ⟨⟨hnew, h, hgrown.sources.2⟩, hnoted⟩

/-! ## Runs -/

/-- **What is contained after a run was noted by one of its operations, together with a dependency on
what the name stood for then.** -/
theorem World.contained_after (index : Nat) {inner outer : String} :
    ∀ operations : List (Operation family),
      inner ∈ ((World.after operations).state index).containedIn outer →
      ∃ done operation, done ++ [operation] <+: operations ∧
        operation.NotesContained (World.after done) index inner outer ∧
        State.Links ((World.after operations).state index).dependents
          (((World.after done).state index).canonicalName inner) outer := by
  intro operations
  induction operations using List.reverseRecOn with
  | nil => exact fun h => nomatch h
  | append_singleton operations operation ih =>
    intro h
    rw [after_concat] at h ⊢
    rcases operation.contained_next h with hbefore | ⟨hnotes, hlink⟩
    · obtain ⟨done, earlier, hdone, hnotes, hlink⟩ := ih hbefore
      refine ⟨done, earlier, hdone.trans (List.prefix_append _ _), hnotes, ?_⟩
      exact ((operation.remembers _ index).dependents.names _).subset hlink
    · exact ⟨operations, operation, List.prefix_refl _, hnotes, hlink⟩

/-- **The two tables of links mirror each other.** Whatever was done with the containers of a family: of
each container, the two tables hold the same pairs, each of them once, and what is noted already is not
noted again. A bean that is contained was noted to be so by one of the operations, and it is noted to be
depended on under what its name stood for when this was done. -/
theorem links_mirrored (operations : List (Operation family)) (index : Nat) :
    let state := (World.after operations).state index
    (∀ name dependent,
      dependent ∈ State.linksOf state.dependents name ↔
        name ∈ State.linksOf state.dependencies dependent) ∧
    (State.pairs state.dependents).Nodup ∧
    (State.pairs state.dependencies).Perm ((State.pairs state.dependents).map Prod.swap) ∧
    (∀ name dependent, dependent ∈ state.dependentsOf name →
      state.noteDependent name dependent = state) ∧
    (∀ inner outer, inner ∈ state.containedIn outer → state.noteContained inner outer = state) ∧
    ∀ inner outer, inner ∈ state.containedIn outer →
      ∃ done operation, done ++ [operation] <+: operations ∧
        operation.NotesContained (World.after done) index inner outer ∧
        outer ∈ State.linksOf state.dependents
          (((World.after done).state index).canonicalName inner) := by
  have hreachable : Reachable family (World.after operations) := ⟨operations, rfl⟩
  have hmirror : ∀ name dependent,
      State.Links ((World.after operations).state index).dependents name dependent ↔
        State.Links ((World.after operations).state index).dependencies dependent name :=
    fun name dependent => ⟨hreachable.mirrored index name dependent, hreachable.counted index name dependent⟩
  refine ⟨hmirror, State.nodup_pairs _, ?_, fun _ _ => State.noteDependent_of_mem,
    fun _ _ => State.noteContained_of_mem, fun _ _ => World.contained_after index operations⟩
  -- lists without repetitions that have the same members are the same but for the order
  have hnodup : ((State.pairs ((World.after operations).state index).dependents).map Prod.swap).Nodup :=
    (State.nodup_pairs _).map Prod.swap_injective
  rw [List.perm_ext_iff_of_nodup (State.nodup_pairs _) hnodup]
  rintro ⟨dependent, name⟩
  rw [State.mem_pairs, ← hmirror, ← State.mem_pairs]
  constructor
  · exact fun h => List.mem_map.mpr ⟨_, h, rfl⟩
  · intro h
    obtain ⟨⟨_, _⟩, hpair, heq⟩ := List.mem_map.mp h
    cases heq
    exact hpair

/-- The name `i` stands for `x` when it is noted to be contained in `o`, and is a definition's own name
afterwards. -/
def renamedOperations : List (Operation (Family.lone plainRegistry)) :=
  let member := Registry.lone plainRegistry
  [.register member (.definition "x" { className := some "P" }),
    .register member (.shorthand "x" "i"),
    .inquire member 0 (.contained "i" "o"),
    .register member (.definition "i" { className := some "P" })]

/-- The dependency was noted under `x`, and no bean depends on `i`. -/
theorem links_mirrored_renamed :
    "i" ∈ ((World.after renamedOperations).state 0).containedIn "o" ∧
      ((World.after renamedOperations).state 0).dependentsOf "i" = [] ∧
      ∃ done operation, done ++ [operation] <+: renamedOperations ∧
        operation.NotesContained (World.after done) 0 "i" "o" ∧
        "o" ∈ State.linksOf ((World.after renamedOperations).state 0).dependents
          (((World.after done).state 0).canonicalName "i") := by
  have hcontained : "i" ∈ ((World.after renamedOperations).state 0).containedIn "o" := by decide +kernel
  obtain ⟨-, -, -, -, -, hnoted⟩ := links_mirrored renamedOperations 0
  exact ⟨hcontained, by decide +kernel, hnoted "i" "o" hcontained⟩

end Injector
