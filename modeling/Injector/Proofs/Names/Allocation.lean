import Injector.Container.Creation
import Injector.Proofs.Values.Integers
import Mathlib.Data.Finset.Card
import Mathlib.Data.Finset.Range

/-!
# Names that are not in use

For a nested bean the names `x`, `x#1`, `x#2`, … are tried one after the other (`State.Tries`). A name is
in use for itself or for what it stands for without its marks, whatever aliases lead on from there. As the
names that are tried differ from one another, and so they do without their marks, only finitely many of them
are in use, and the first that is not is found (`State.freeName_first`, `State.freeName_allocates`).
-/

namespace Injector

/-! ## Numbered names -/

namespace State

theorem toList_numberedName_succ (name : String) (count : Nat) :
    (numberedName name (count + 1)).toList =
      name.toList ++ '#' :: (Number.integerText (count + 1)).toList := by
  simp [numberedName, String.toList_append]

/-- The names that are tried are all different. -/
theorem numberedName_injective (name : String) : Function.Injective (numberedName name) := by
  intro first second h
  have hlist := congrArg String.toList h
  cases first with
  | zero =>
    cases second with
    | zero => rfl
    | succ second =>
      rw [toList_numberedName_succ] at hlist
      have hlength := congrArg List.length hlist
      simp [numberedName] at hlength
  | succ first =>
    cases second with
    | zero =>
      rw [toList_numberedName_succ] at hlist
      have hlength := congrArg List.length hlist
      simp [numberedName] at hlength
    | succ second =>
      rw [toList_numberedName_succ, toList_numberedName_succ, List.append_cancel_left_eq,
        List.cons.injEq] at hlist
      have hcounts := Number.integerText_injective (String.toList_injective hlist.2)
      omega

/-- The number comes behind what is left of the name without its marks. -/
theorem plainName_numberedName (name : String) (count : Nat) :
    plainName (numberedName name count) = numberedName (plainName name) count := by
  cases count with
  | zero => rfl
  | succ count =>
    refine String.toList_injective ?_
    rw [toList_numberedName_succ, plainName, plainName, String.toList_ofList, String.toList_ofList,
      toList_numberedName_succ, List.dropWhile_append]
    cases hrest : name.toList.dropWhile (· = '&') with
    | nil => simp
    | cons first rest => simp

/-- A number puts no mark before a name. -/
theorem plain_numberedName {name : String} (h : asksForFactory name = false) (count : Nat) :
    asksForFactory (numberedName name count) = false := by
  cases count with
  | zero => exact h
  | succ count =>
    unfold asksForFactory at h ⊢
    rw [toList_numberedName_succ]
    cases hname : name.toList with
    | nil => rfl
    | cons first rest => rwa [hname] at h

/-! ## A name that is free -/

/-- Of finitely many names, at most as many are among different names with numbers. -/
theorem card_numbered_le {tried : Nat → String} (hinjective : Function.Injective tried)
    (names : List String) (bound : Nat) :
    ((Finset.range bound).filter fun count => tried count ∈ names).card ≤ names.length := by
  refine le_trans (Finset.card_le_card_of_injOn (t := names.toFinset) tried ?_ hinjective.injOn)
    names.toFinset_card_le
  intro count hcount
  exact List.mem_toFinset.mpr (Finset.mem_filter.mp hcount).2

variable {state : State} {name : String}

/-- A name is in use for itself, or for what it is without its marks. -/
theorem inUse_cases (h : state.isNameInUse name = true) :
    name ∈ state.aliases.keys ++ state.dependents.keys ∨
      plainName name ∈ state.aliases.keys ++ state.singletons.keys ++ state.definitions.keys := by
  simp only [isNameInUse, Bool.or_eq_true] at h
  simp only [List.mem_append, ← Table.contains_iff_mem_keys]
  rcases h with (halias | hlocal) | hdependents
  · exact .inl (.inl halias)
  · right
    cases halias : state.aliases.contains (plainName name) with
    | true => exact .inl (.inl rfl)
    | false =>
      unfold containsLocal at hlocal
      rw [canonicalName_of_end ((Table.find?_eq_none_iff _ _).mpr halias), Bool.or_eq_true] at hlocal
      exact hlocal.imp .inr id
  · left
    right
    cases hfound : state.dependents.find? name with
    | none =>
      rw [hasDependents, hfound] at hdependents
      cases hdependents
    | some names => exact Table.contains_of_find? hfound

/-- **Among the names that are tried there is one that is not in use.** There are more of them than could
be. -/
theorem exists_not_inUse (state : State) (name : String) :
    ∃ count ≤ state.usedNamesBound, state.isNameInUse (numberedName name count) = false := by
  by_contra hnone
  have hused : ∀ count ∈ Finset.range (state.usedNamesBound + 1),
      state.isNameInUse (numberedName name count) = true := by
    intro count hcount
    refine Bool.of_not_eq_false fun hfree => hnone ⟨count, ?_, hfree⟩
    exact Nat.le_of_lt_succ (Finset.mem_range.mp hcount)
  have hcover : Finset.range (state.usedNamesBound + 1) ⊆
      ((Finset.range (state.usedNamesBound + 1)).filter fun count =>
        numberedName name count ∈ state.aliases.keys ++ state.dependents.keys) ∪
      ((Finset.range (state.usedNamesBound + 1)).filter fun count =>
        numberedName (plainName name) count ∈
          state.aliases.keys ++ state.singletons.keys ++ state.definitions.keys) := by
    intro count hcount
    rw [Finset.mem_union, Finset.mem_filter, Finset.mem_filter, ← plainName_numberedName]
    exact (inUse_cases (hused count hcount)).imp (⟨hcount, ·⟩) (⟨hcount, ·⟩)
  have hcard := (Finset.card_le_card hcover).trans (Finset.card_union_le _ _)
  have hfirst := card_numbered_le (numberedName_injective name)
    (state.aliases.keys ++ state.dependents.keys) (state.usedNamesBound + 1)
  have hsecond := card_numbered_le (numberedName_injective (plainName name))
    (state.aliases.keys ++ state.singletons.keys ++ state.definitions.keys)
    (state.usedNamesBound + 1)
  have hlength : (state.aliases.keys ++ state.dependents.keys).length +
      (state.aliases.keys ++ state.singletons.keys ++ state.definitions.keys).length =
        state.usedNamesBound := by
    simp only [List.length_append, Table.keys, List.length_map, usedNamesBound, Table.size]
    omega
  rw [Finset.card_range] at hcard
  omega

theorem freeName_eq (state : State) (name : String) :
    ∃ count, state.freeName name = numberedName name count :=
  ⟨_, rfl⟩

/-- **The name that is chosen is the first of those tried that is not in use.** -/
theorem freeName_first (state : State) (name : String) :
    ∃ count ≤ state.usedNamesBound, state.freeName name = numberedName name count ∧
      state.isNameInUse (numberedName name count) = false ∧
      ∀ earlier < count, state.isNameInUse (numberedName name earlier) = true := by
  unfold freeName
  dsimp only
  cases hfind : (List.range (state.usedNamesBound + 1)).find? fun count =>
      !state.isNameInUse (numberedName name count) with
  | none =>
    obtain ⟨count, hcount, hfree⟩ := state.exists_not_inUse name
    have hused := List.find?_eq_none.mp hfind count (List.mem_range.mpr (Nat.lt_succ_of_le hcount))
    rw [hfree] at hused
    exact absurd rfl hused
  | some count =>
    obtain ⟨hfree, hmem, hbefore⟩ := List.find?_range_eq_some.mp hfind
    refine ⟨count, Nat.le_of_lt_succ (List.mem_range.mp hmem), rfl, by simpa using hfree, ?_⟩
    intro earlier hlt
    simpa using hbefore earlier hlt

/-- A name that is tried is chosen if it is not in use and all those before it are. -/
theorem freeName_of_first {count : Nat} (hfree : state.isNameInUse (numberedName name count) = false)
    (hbefore : ∀ earlier < count, state.isNameInUse (numberedName name earlier) = true) :
    state.freeName name = numberedName name count := by
  obtain ⟨first, -, heq, hfree', hbefore'⟩ := state.freeName_first name
  -- neither of the two can come before the other
  rcases Nat.lt_trichotomy first count with hlt | rfl | hlt
  · rw [hbefore first hlt] at hfree'
    cases hfree'
  · exact heq
  · rw [hbefore' count hlt] at hfree
    cases hfree

/-- The name that is chosen is not in use. -/
theorem not_inUse_freeName (state : State) (name : String) :
    state.isNameInUse (state.freeName name) = false := by
  obtain ⟨count, -, heq, hfree, -⟩ := state.freeName_first name
  rw [heq, hfree]

/-- A name without a mark that is not in use has no definition, no alias and no singleton. -/
theorem unbound_of_not_inUse (hplain : asksForFactory name = false)
    (h : state.isNameInUse name = false) :
    state.aliases.contains name = false ∧ state.singletons.contains name = false ∧
      state.definitions.contains name = false := by
  simp only [isNameInUse, Bool.or_eq_false_iff] at h
  obtain ⟨⟨halias, hlocal⟩, -⟩ := h
  unfold containsLocal at hlocal
  rw [plainName_of_plain hplain, canonicalName_of_end ((Table.find?_eq_none_iff _ _).mpr halias),
    Bool.or_eq_false_iff] at hlocal
  exact ⟨halias, hlocal⟩

/-! ## Trying names -/

/-- Trying names from a count on: a name in use is given up for the next one. -/
inductive Tries (state : State) (name : String) : Nat → String → Prop
  | free {count : Nat} (h : state.isNameInUse (numberedName name count) = false) :
    Tries state name count (numberedName name count)
  | taken {count : Nat} {given : String} (h : state.isNameInUse (numberedName name count) = true)
    (hrest : Tries state name (count + 1) given) : Tries state name count given

/-- Trying ends at the first name from the count on that is not in use. -/
theorem tries_iff {count : Nat} {given : String} :
    Tries state name count given ↔
      ∃ last ≥ count, given = numberedName name last ∧
        state.isNameInUse (numberedName name last) = false ∧
        ∀ k, count ≤ k → k < last → state.isNameInUse (numberedName name k) = true := by
  constructor
  · intro h
    induction h with
    | @free count hfree =>
      exact ⟨count, Nat.le_refl count, rfl, hfree, fun k hle hlt => absurd hlt (Nat.not_lt.mpr hle)⟩
    | @taken count given htaken _ ih =>
      obtain ⟨last, hlast, hgiven, hfree, hbefore⟩ := ih
      refine ⟨last, Nat.le_of_succ_le hlast, hgiven, hfree, fun k hle hlt => ?_⟩
      rcases Nat.eq_or_lt_of_le hle with rfl | hbehind
      · exact htaken
      · exact hbefore k hbehind hlt
  · rintro ⟨last, hlast, rfl, hfree, hbefore⟩
    obtain ⟨gap, rfl⟩ := Nat.exists_eq_add_of_le hlast
    induction gap generalizing count with
    | zero => exact .free hfree
    | succ gap ih =>
      have hnext : count + (gap + 1) = count + 1 + gap := by omega
      refine .taken (hbefore count (Nat.le_refl count) (by omega)) ?_
      rw [hnext] at hfree hbefore ⊢
      exact ih (Nat.le_add_right _ _) hfree fun k hle hlt => hbefore k (Nat.le_of_succ_le hle) hlt

/-- The names behind the first one end with their number. -/
theorem numberedName_of_pos {count : Nat} (h : 1 ≤ count) :
    numberedName name count = name ++ "#" ++ Number.integerText count := by
  obtain ⟨count, rfl⟩ := Nat.exists_eq_add_of_le' h
  rfl

/-- **A nested bean gets the first name that is not in use.** Whatever a container holds, and whatever name
is wanted for the bean: trying comes to an end, and with one name. It is the name that is wanted if that is
not in use, and else that name with the least number from one on that makes it one that is not; the number
is bounded by the size of what the container holds. Nothing about the container changes; only that the name
was given is noted. -/
theorem freeName_allocates (state : State) (name : String) :
    (∀ given, Tries state name 0 given ↔ state.freeName name = given) ∧
    (state.isNameInUse name = false → state.freeName name = name) ∧
    (state.isNameInUse name = true →
      ∃ k : Nat, 1 ≤ k ∧ k ≤ state.usedNamesBound ∧
        state.freeName name = name ++ "#" ++ Number.integerText k ∧
        state.isNameInUse (name ++ "#" ++ Number.integerText k) = false ∧
        ∀ j : Nat, 1 ≤ j → j < k → state.isNameInUse (name ++ "#" ++ Number.integerText j) = true) ∧
    ∀ (registry : Registry) (world : World), world.state registry.index = state →
      registry.freeName name world = (.ok (state.freeName name), { world with
        journal := .named registry.index name (state.freeName name) :: world.journal }) := by
  obtain ⟨count, hbound, heq, hfree, hbefore⟩ := state.freeName_first name
  refine ⟨fun given => ⟨fun h => ?_, fun h => ?_⟩, fun hunused => ?_, fun hused => ?_, ?_⟩
  · obtain ⟨last, -, rfl, hlast, hused⟩ := tries_iff.mp h
    exact freeName_of_first hlast fun k hlt => hused k (Nat.zero_le _) hlt
  · rw [← h, heq]
    exact tries_iff.mpr ⟨count, Nat.zero_le _, rfl, hfree, fun k _ hlt => hbefore k hlt⟩
  · rcases Nat.eq_zero_or_pos count with rfl | hpos
    · exact heq
    · exact absurd (hbefore 0 hpos) (by simpa [numberedName] using hunused)
  · have hpos : 1 ≤ count := by
      refine Nat.one_le_iff_ne_zero.mpr ?_
      rintro rfl
      exact absurd hfree (by simpa [numberedName] using hused)
    rw [numberedName_of_pos hpos] at heq hfree
    refine ⟨count, hpos, hbound, heq, hfree, fun j hj hlt => ?_⟩
    rw [← numberedName_of_pos hj]
    exact hbefore j hlt
  · rintro registry world rfl
    rfl

/-- A container in which the name `&x` is in use since its bean is defined, and so are the first three names
with numbers: one for its dependents, one as a marked alias and one for a marked singleton. -/
def crowded : State :=
  ({ definitions := Table.ofList [("x", {})]
     aliases := Table.ofList [("x#2", "x")]
     singletons := Table.ofList [("x#3", .null)] } : State).noteDependent "&x#1" "o"

/-- The fourth number is the first that makes a name that is not in use. -/
theorem freeName_allocates_crowded :
    crowded.isNameInUse "&x" = true ∧ Tries crowded "&x" 0 "&x#4" ∧
      ∃ k : Nat, 1 ≤ k ∧ "&x#4" = "&x" ++ "#" ++ Number.integerText k ∧
        ∀ j : Nat, 1 ≤ j → j < k → crowded.isNameInUse ("&x" ++ "#" ++ Number.integerText j) = true := by
  obtain ⟨htried, -, hnumbered, -⟩ := freeName_allocates crowded "&x"
  have hused : crowded.isNameInUse "&x" = true := by decide +kernel
  have hgiven : crowded.freeName "&x" = "&x#4" := by decide +kernel
  obtain ⟨k, hk, -, heq, -, hbefore⟩ := hnumbered hused
  rw [hgiven] at heq
  exact ⟨hused, (htried _).mpr hgiven, k, hk, heq, hbefore⟩

end State

end Injector
