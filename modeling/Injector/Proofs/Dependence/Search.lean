import Injector.Proofs.Dependence.Links

/-!
# How dependence is searched

Whether a bean depends on another one is found out by going over links, depth first. A name is entered once
and no more: where it is come upon again it is passed over, whether the search is still busy behind it or is
through with it, and names that nothing is bound to are remembered too (`State.Searches`).

The search comes to an end whatever the links are, and it finds the goal exactly if a chain of links leads
there (`State.search_decides`). A search that finds nothing has entered just what can be reached, so no
name that was passed over hides the goal.
-/

namespace Injector.State

open Relation

variable {table : Table NameSet} {goal : String} {names entered after : List String} {found : Bool}

/-! ## Searching -/

/-- A search for a goal through names, one after the other. It goes on from the names that were entered
before, and tells whether the goal was found and which names are entered then, latest first. The links of a
name are searched before the names behind it. -/
inductive Searches (table : Table NameSet) (goal : String) :
    List String → List String → Bool → List String → Prop
  | done {entered : List String} : Searches table goal [] entered false entered
  /-- The name was entered before. -/
  | passed {name : String} {rest entered after : List String} {found : Bool} (hname : name ∈ entered)
    (hrest : Searches table goal rest entered found after) :
    Searches table goal (name :: rest) entered found after
  /-- The goal is linked to the name itself. -/
  | linked {name : String} {rest entered : List String} (hname : name ∉ entered)
    (hgoal : goal ∈ linksOf table name) :
    Searches table goal (name :: rest) entered true (name :: entered)
  /-- The goal is found among the links of the name. -/
  | within {name : String} {rest entered after : List String} (hname : name ∉ entered)
    (hgoal : goal ∉ linksOf table name)
    (hlinks : Searches table goal (linksOf table name) (name :: entered) true after) :
    Searches table goal (name :: rest) entered true after
  /-- The goal is not among the links of the name, and the search goes on behind it. -/
  | behind {name : String} {rest entered between after : List String} {found : Bool}
    (hname : name ∉ entered) (hgoal : goal ∉ linksOf table name)
    (hlinks : Searches table goal (linksOf table name) (name :: entered) false between)
    (hrest : Searches table goal rest between found after) :
    Searches table goal (name :: rest) entered found after

namespace Searches

/-- A search comes to one answer at most. -/
theorem unique {found' : Bool} {after' : List String} (h : Searches table goal names entered found after)
    (h' : Searches table goal names entered found' after') : found = found' ∧ after = after' := by
  induction h generalizing found' after' with
  | done =>
    cases h'
    exact ⟨rfl, rfl⟩
  | passed hname _ ih =>
    cases h' with
    | passed _ hrest => exact ih hrest
    | linked hnot => exact absurd hname hnot
    | within hnot => exact absurd hname hnot
    | behind hnot => exact absurd hname hnot
  | linked hnot hgoal =>
    cases h' with
    | passed hname => exact absurd hname hnot
    | linked => exact ⟨rfl, rfl⟩
    | within _ hnone => exact absurd hgoal hnone
    | behind _ hnone => exact absurd hgoal hnone
  | within hnot hnone _ ih =>
    cases h' with
    | passed hname => exact absurd hname hnot
    | linked _ hgoal => exact absurd hgoal hnone
    | within _ _ hlinks => exact ih hlinks
    | behind _ _ hlinks => exact absurd (ih hlinks).1 (by decide)
  | behind hnot hnone _ _ ihlinks ihrest =>
    cases h' with
    | passed hname => exact absurd hname hnot
    | linked _ hgoal => exact absurd hgoal hnone
    | within _ _ hlinks => exact absurd (ihlinks hlinks).1 (by decide)
    | behind _ _ hlinks hrest =>
      obtain ⟨-, rfl⟩ := ihlinks hlinks
      exact ihrest hrest

/-- A search through names goes through the first ones, and through the others if nothing was found. -/
theorem of_append {rest : List String} (h : Searches table goal (names ++ rest) entered found after) :
    (found = true ∧ Searches table goal names entered true after) ∨
      ∃ between, Searches table goal names entered false between ∧
        Searches table goal rest between found after := by
  induction names generalizing entered with
  | nil => exact .inr ⟨entered, .done, h⟩
  | cons name names ih =>
    cases h with
    | passed hname hrest =>
      rcases ih hrest with ⟨hfound, hfirst⟩ | ⟨between, hfirst, hothers⟩
      · exact .inl ⟨hfound, .passed hname hfirst⟩
      · exact .inr ⟨between, .passed hname hfirst, hothers⟩
    | linked hname hgoal => exact .inl ⟨rfl, .linked hname hgoal⟩
    | within hname hgoal hlinks => exact .inl ⟨rfl, .within hname hgoal hlinks⟩
    | behind hname hgoal hlinks hrest =>
      rcases ih hrest with ⟨hfound, hfirst⟩ | ⟨between, hfirst, hothers⟩
      · exact .inl ⟨hfound, .behind hname hgoal hlinks hfirst⟩
      · exact .inr ⟨between, .behind hname hgoal hlinks hfirst, hothers⟩

/-- What is entered stays so. -/
theorem subset (h : Searches table goal names entered found after) : entered ⊆ after := by
  induction h with
  | done => exact List.Subset.refl _
  | passed _ _ ih => exact ih
  | linked => exact List.subset_cons_self _ _
  | within _ _ _ ih => exact List.Subset.trans (List.subset_cons_self _ _) ih
  | behind _ _ _ _ ihlinks ihrest =>
    exact List.Subset.trans (List.Subset.trans (List.subset_cons_self _ _) ihlinks) ihrest

/-- What is entered by a search is reached from the names that are searched. -/
theorem reached (h : Searches table goal names entered found after) :
    ∀ x ∈ after, x ∈ entered ∨ ∃ start ∈ names, ReflTransGen (Links table) start x := by
  -- what the links of a name lead to is reached from the name
  have hover {name x : String} {entered : List String}
      (h : x ∈ name :: entered ∨ ∃ start ∈ linksOf table name, ReflTransGen (Links table) start x) :
      x ∈ entered ∨ ReflTransGen (Links table) name x := by
    rcases h with hmem | ⟨start, hlink, hchain⟩
    · rcases List.mem_cons.mp hmem with rfl | hmem
      · exact .inr .refl
      · exact .inl hmem
    · exact .inr (.head hlink hchain)
  induction h with
  | done => exact fun x hx => .inl hx
  | passed _ _ ih =>
    intro x hx
    refine (ih x hx).imp_right ?_
    rintro ⟨start, hstart, hchain⟩
    exact ⟨start, List.mem_cons_of_mem _ hstart, hchain⟩
  | linked =>
    intro x hx
    exact (hover (.inl hx)).imp_right fun hchain => ⟨_, List.mem_cons_self, hchain⟩
  | within _ _ _ ih =>
    intro x hx
    exact (hover (ih x hx)).imp_right fun hchain => ⟨_, List.mem_cons_self, hchain⟩
  | behind _ _ _ _ ihlinks ihrest =>
    intro x hx
    rcases ihrest x hx with hbetween | ⟨start, hstart, hchain⟩
    · exact (hover (ihlinks x hbetween)).imp_right fun hchain => ⟨_, List.mem_cons_self, hchain⟩
    · exact .inr ⟨start, List.mem_cons_of_mem _ hstart, hchain⟩

/-- **A search that finds nothing has been through with all that it entered**: whatever is linked to such a
name is entered too. Names that were entered before may still be searched, so nothing is said of them. -/
theorem closed (h : Searches table goal names entered found after) (hfound : found = false) :
    names ⊆ after ∧ ∀ x ∈ after, x ∉ entered → linksOf table x ⊆ after := by
  induction h with
  | done => exact ⟨List.nil_subset _, fun x hx hnot => absurd hx hnot⟩
  | passed hname hrest ih =>
    obtain ⟨hnames, hlinks⟩ := ih hfound
    exact ⟨List.cons_subset.mpr ⟨hrest.subset hname, hnames⟩, hlinks⟩
  | linked => cases hfound
  | within => cases hfound
  | @behind name rest entered between after found hname hgoal hlinks hrest ihlinks ihrest =>
    obtain ⟨hmembers, hwithin⟩ := ihlinks rfl
    obtain ⟨hnames, hbehind⟩ := ihrest hfound
    refine ⟨List.cons_subset.mpr ⟨hrest.subset (hlinks.subset List.mem_cons_self), hnames⟩,
      fun x hx hnot => ?_⟩
    by_cases hbetween : x ∈ between
    · by_cases he : x = name
      · rw [he]
        exact List.Subset.trans hmembers hrest.subset
      · exact List.Subset.trans (hwithin x hbetween (by simp [he, hnot])) hrest.subset
    · exact hbehind x hx hbetween

end Searches

/-! ## The end of a search -/

/-- The bound names that were not entered. -/
def unentered (table : Table NameSet) (entered : List String) : List String :=
  table.keys.filter (· ∉ entered)

theorem mem_unentered_iff {name : String} :
    name ∈ unentered table entered ↔ name ∈ table.keys ∧ name ∉ entered := by
  simp [unentered]

/-- A name that is entered is left behind. -/
theorem unentered_cons (table : Table NameSet) (name : String) (entered : List String) :
    unentered table (name :: entered) = (unentered table entered).erase name := by
  have hnodup : (unentered table entered).Nodup := table.nodup_keys.filter _
  rw [hnodup.erase_eq_filter, unentered, unentered, List.filter_filter]
  refine List.filter_congr fun other _ => ?_
  rw [Bool.eq_iff_iff]
  simp

/-- **Every search comes to an end**, and to the answer that is had with all pending names in one list. -/
theorem searches_reaches (table : Table NameSet) (goal : String) (names entered : List String) :
    ∃ after, Searches table goal names entered
      (reaches table goal names (unentered table entered)) after := by
  generalize hunseen : unentered table entered = unseen
  fun_induction reaches table goal names unseen generalizing entered with
  | case1 => exact ⟨entered, .done⟩
  | case2 name pending unseen hmem next ih =>
    have hname : name ∉ entered := (mem_unentered_iff.mp (hunseen ▸ hmem)).2
    by_cases hgoal : goal ∈ next
    · rw [List.contains_iff_mem.mpr hgoal]
      exact ⟨_, .linked hname hgoal⟩
    · have hcontains : next.contains goal = false := by simpa using hgoal
      rw [hcontains, Bool.false_or]
      obtain ⟨after, hsearch⟩ := ih (name :: entered) (by rw [unentered_cons, hunseen])
      rcases hsearch.of_append with ⟨hfound, hlinks⟩ | ⟨between, hlinks, hrest⟩
      · rw [hfound]
        exact ⟨after, .within hname hgoal hlinks⟩
      · exact ⟨after, .behind hname hgoal hlinks hrest⟩
  | case3 name pending unseen hmem ih =>
    by_cases hname : name ∈ entered
    · obtain ⟨after, hrest⟩ := ih entered hunseen
      exact ⟨after, .passed hname hrest⟩
    · -- nothing is bound to the name, so there is nothing behind it
      have hkey : name ∉ table.keys := fun hkey =>
        hmem (hunseen ▸ mem_unentered_iff.mpr ⟨hkey, hname⟩)
      have hnone : linksOf table name = [] := List.eq_nil_iff_forall_not_mem.mpr fun member hlink =>
        hkey (Links.mem_keys hlink)
      obtain ⟨after, hrest⟩ := ih (name :: entered) (by
        rw [unentered_cons, hunseen, List.erase_of_not_mem hmem])
      refine ⟨after, .behind hname ?_ ?_ hrest⟩
      · rw [hnone]
        exact List.not_mem_nil
      · rw [hnone]
        exact .done

/-! ## What is found -/

/-- A search that has entered nothing before and finds nothing enters just what can be reached. -/
theorem Searches.entered_iff {start : String} (h : Searches table goal [start] [] false after)
    (name : String) : name ∈ after ↔ ReflTransGen (Links table) start name := by
  obtain ⟨hstart, hlinks⟩ := h.closed rfl
  constructor
  · intro hname
    obtain ⟨_, hmem, hchain⟩ := (h.reached name hname).resolve_left List.not_mem_nil
    rwa [List.mem_singleton.mp hmem] at hchain
  · intro hchain
    induction hchain with
    | refl => exact hstart List.mem_cons_self
    | tail _ hlink ih => exact hlinks _ ih List.not_mem_nil hlink

/-- **The search for dependence always ends, and its answer is exact.** Whatever the links of a container
are, and whether or not they lead in circles: a search from what a name stands for comes to exactly one
answer, and the answer is yes exactly if a chain of one or more links leads to the goal. If it is no, then
the names entered are just those that can be reached. -/
theorem search_decides (state : State) (name dependent : String) :
    (∀ found, (∃ after, Searches state.dependents dependent [state.canonicalName name] [] found after) ↔
      state.isDependent name dependent = found) ∧
    (state.isDependent name dependent = true ↔
      TransGen (Links state.dependents) (state.canonicalName name) dependent) ∧
    ∀ after, Searches state.dependents dependent [state.canonicalName name] [] false after →
      ∀ other, other ∈ after ↔ ReflTransGen (Links state.dependents) (state.canonicalName name) other := by
  refine ⟨fun found => ?_, isDependent_iff, fun after h other => h.entered_iff other⟩
  have hkeys : unentered state.dependents [] = state.dependents.keys := by
    simp [unentered]
  obtain ⟨all, hsearch⟩ := searches_reaches state.dependents dependent [state.canonicalName name] []
  rw [hkeys] at hsearch
  constructor
  · rintro ⟨after, h⟩
    exact (hsearch.unique h).1
  · rintro rfl
    exact ⟨_, hsearch⟩

/-- Three beans that depend on one another in a circle. -/
def circle : State :=
  ((({} : State).noteDependent "a" "b").noteDependent "b" "c").noteDependent "c" "a"

/-- In a circle each bean depends on itself. A search for something else goes around once and ends, and
nothing that it entered was linked to it. -/
theorem search_decides_circle :
    TransGen (Links circle.dependents) "a" "a" ∧
      ∃ after, Searches circle.dependents "z" ["a"] [] false after ∧ "c" ∈ after ∧ "z" ∉ after := by
  have hcanonical : circle.canonicalName "a" = "a" := by decide +kernel
  have hlinks : linksOf circle.dependents "a" = ["b"] ∧ linksOf circle.dependents "b" = ["c"] := by
    decide +kernel
  have hnone : ∀ key ∈ circle.dependents.keys, "z" ∉ linksOf circle.dependents key := by
    decide +kernel
  obtain ⟨-, hself, -⟩ := search_decides circle "a" "a"
  obtain ⟨hanswer, -, hentered⟩ := search_decides circle "a" "z"
  rw [hcanonical] at hself hanswer hentered
  obtain ⟨after, hsearch⟩ := (hanswer false).mpr (by decide +kernel)
  refine ⟨hself.mp (by decide +kernel), after, hsearch, (hentered after hsearch "c").mpr ?_, fun hz => ?_⟩
  · have hfirst : Links circle.dependents "a" "b" := by
      unfold Links
      rw [hlinks.1]
      exact List.mem_cons_self
    have hsecond : Links circle.dependents "b" "c" := by
      unfold Links
      rw [hlinks.2]
      exact List.mem_cons_self
    exact .head hfirst (.single hsecond)
  · rcases ReflTransGen.cases_tail ((hentered after hsearch "z").mp hz) with heq | ⟨last, -, hlink⟩
    · exact absurd heq (by decide)
    · exact hnone last hlink.mem_keys hlink

end Injector.State
