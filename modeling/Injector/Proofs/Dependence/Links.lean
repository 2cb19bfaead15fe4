import Injector.Container.State
import Mathlib.Logic.Relation

/-!
# Dependence over links

A bean depends on another one if a chain of links leads from that one to it. The search for such a
chain (`State.reaches`) leaves every name behind once it was looked at, and nothing is lost by that:
what is reached over a name that was left behind is reached from its links, which are pending or were
left behind later. So the search finds a goal exactly if a chain leads there (`State.isDependent_iff`).
-/

namespace Injector

namespace State

/-- A name is in the set bound to another name. -/
def Links (table : Table NameSet) (name member : String) : Prop :=
  member ∈ linksOf table name

/-- A link from a name that was not left behind yet. -/
def LinksFrom (table : Table NameSet) (unseen : List String) (name member : String) : Prop :=
  name ∈ unseen ∧ Links table name member

variable {table : Table NameSet} {goal : String}

theorem hasDependents_congr {state after : State} (h : after.dependents = state.dependents)
    (name : String) : after.hasDependents name = state.hasDependents name := by
  unfold hasDependents
  rw [h]

theorem containedIn_congr {state after : State} (h : after.contained = state.contained) (outer : String) :
    after.containedIn outer = state.containedIn outer := by
  unfold containedIn
  rw [h]

/-- A name with links is bound. -/
theorem Links.mem_keys {name member : String} (h : Links table name member) : name ∈ table.keys := by
  unfold Links linksOf at h
  cases hfind : table.find? name with
  | none =>
    rw [hfind] at h
    cases h
  | some names => exact (table.contains_iff_mem_keys name).mp (Table.contains_of_find? hfind)

theorem linksFrom_keys : LinksFrom table table.keys = Links table := by
  funext name member
  exact propext ⟨And.right, fun h => ⟨h.mem_keys, h⟩⟩

open Relation in
/-- A chain that passes through a name can be entered behind the last place where it does. -/
theorem chain_behind {unseen : List String} (name : String) {start : String}
    (h : TransGen (LinksFrom table unseen) start goal) :
    (start ≠ name ∧ TransGen (LinksFrom table (unseen.erase name)) start goal) ∨
      Links table name goal ∨
      ∃ next, Links table name next ∧ TransGen (LinksFrom table (unseen.erase name)) next goal := by
  induction h using TransGen.head_induction_on with
  | @single start hlink =>
    by_cases he : start = name
    · exact Or.inr (Or.inl (he ▸ hlink.2))
    · exact Or.inl ⟨he, .single ⟨(List.mem_erase_of_ne he).mpr hlink.1, hlink.2⟩⟩
  | @head start next hlink _ ih =>
    refine ih.elim (fun hrest => ?_) Or.inr
    by_cases he : start = name
    · exact Or.inr (Or.inr ⟨next, he ▸ hlink.2, hrest.2⟩)
    · exact Or.inl ⟨he, .head ⟨(List.mem_erase_of_ne he).mpr hlink.1, hlink.2⟩ hrest.2⟩

open Relation in
/-- **The search finds what a chain of links leads to that were not left behind.** -/
theorem reaches_iff (pending unseen : List String) :
    reaches table goal pending unseen = true ↔
      ∃ start ∈ pending, TransGen (LinksFrom table unseen) start goal := by
  fun_induction reaches table goal pending unseen with
  | case1 unseen => simp
  | case2 name pending unseen hmem next ih =>
    have hmono : ∀ {start : String}, TransGen (LinksFrom table (unseen.erase name)) start goal →
        TransGen (LinksFrom table unseen) start goal := fun hchain =>
      TransGen.mono (fun _ _ hlink => ⟨List.mem_of_mem_erase hlink.1, hlink.2⟩) _ _ hchain
    rw [Bool.or_eq_true, ih, List.contains_iff_mem]
    constructor
    · rintro (hgoal | ⟨start, hstart, hchain⟩)
      · exact ⟨name, List.mem_cons_self, .single ⟨hmem, hgoal⟩⟩
      · rcases List.mem_append.mp hstart with hnext | hpending
        · exact ⟨name, List.mem_cons_self, .head ⟨hmem, hnext⟩ (hmono hchain)⟩
        · exact ⟨start, List.mem_cons_of_mem _ hpending, hmono hchain⟩
    · rintro ⟨start, hstart, hchain⟩
      rcases chain_behind name hchain with ⟨hne, hrest⟩ | hgoal | ⟨other, hother, hrest⟩
      · have hpending := (List.mem_cons.mp hstart).resolve_left hne
        exact Or.inr ⟨start, List.mem_append_right _ hpending, hrest⟩
      · exact Or.inl hgoal
      · exact Or.inr ⟨other, List.mem_append_left _ hother, hrest⟩
  | case3 name pending unseen hmem ih =>
    rw [ih]
    constructor
    · rintro ⟨start, hstart, hchain⟩
      exact ⟨start, List.mem_cons_of_mem _ hstart, hchain⟩
    · rintro ⟨start, hstart, hchain⟩
      rcases List.mem_cons.mp hstart with rfl | hpending
      · obtain ⟨_, hlink, -⟩ := TransGen.head'_iff.mp hchain
        exact absurd hlink.1 hmem
      · exact ⟨start, hpending, hchain⟩

theorem linked_iff {name member : String} : linked table name member = true ↔ Links table name member := by
  unfold linked Links linksOf
  cases table.find? name with
  | none => simp
  | some names => simp [NameSet.contains_iff_mem_names]

/-- A bean that was noted to depend on another one is linked to it. -/
theorem links_noteDependent (state : State) (name dependent : String) :
    Links (state.noteDependent name dependent).dependents (state.canonicalName name) dependent := by
  unfold noteDependent
  dsimp only
  split
  · next hlinked => exact linked_iff.mp hlinked
  · exact (mem_linksOf_link _ _ _ _ _).mpr (Or.inl ⟨rfl, rfl⟩)

/-- A bean that was noted to be made for another one is linked to it. -/
theorem mem_containedIn_noteContained (state : State) (inner outer : String) :
    inner ∈ (state.noteContained inner outer).containedIn outer := by
  unfold noteContained containedIn
  split
  · next hlinked => exact linked_iff.mp hlinked
  · have hlink : inner ∈ linksOf (link state.contained outer inner) outer :=
      (mem_linksOf_link _ _ _ _ _).mpr (Or.inl ⟨rfl, rfl⟩)
    unfold noteDependent
    dsimp only
    split <;> exact hlink

/-- Only a bean that was not noted as contained before is noted to be depended on then. -/
theorem noteContained_new {state : State} {inner outer inner' outer' : String}
    (hold : inner' ∉ state.containedIn outer')
    (hnew : inner' ∈ (state.noteContained inner outer).containedIn outer') :
    state.noteContained inner outer =
        { state with contained := link state.contained outer inner }.noteDependent inner outer ∧
      outer' = outer ∧ inner' = inner := by
  unfold noteContained at hnew ⊢
  split at hnew
  · exact absurd hnew hold
  · next hlinked =>
    have hcontained : inner' ∈ linksOf (link state.contained outer inner) outer' := by
      unfold noteDependent at hnew
      dsimp only at hnew
      split at hnew <;> exact hnew
    refine ⟨if_neg hlinked, ?_⟩
    exact ((mem_linksOf_link _ _ _ _ _).mp hcontained).resolve_right hold

/-- **A bean counts as dependent on another one exactly if a chain of links leads to it.** -/
theorem isDependent_iff {state : State} {name dependent : String} :
    state.isDependent name dependent = true ↔
      Relation.TransGen (Links state.dependents) (state.canonicalName name) dependent := by
  unfold isDependent
  rw [reaches_iff, linksFrom_keys]
  simp

end State

end Injector
