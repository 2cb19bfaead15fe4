import Injector.Proofs.Merging.Descent
import Injector.Proofs.Names.AliasCycles

/-!
# Which of several candidates is meant

Of several candidates the only primary one is meant, or else the first that goes by the name of the place
(`State.Means`); of a single one nothing is asked. Choosing comes to this (`chooseOne_apply`), and so it is a
matter of the definitions and the aliases alone (`State.meant_congr`). A single place is given the bean that
is meant, and a list or a map the beans of all candidates (`inject_single_eq_ok_iff`,
`inject_list_eq_ok_iff`, `inject_map_eq_ok_iff`).
-/

namespace Injector

namespace State

variable (state : State)

/-- The candidates that are primary. -/
def primaries (candidates : List String) : List String :=
  candidates.filter fun name => (state.definition? name).any (·.primary)

/-- A bean goes by a name: it is its own, or it is an alias for just this bean. -/
def GoesBy (name wanted : String) : Prop :=
  name = wanted ∨ Hop state.aliases wanted name

/-- Which of some candidates is meant: the only one, else the only primary one, else the first that goes
by the name of the place. -/
inductive Means (candidates : List String) (place : Option String) : String → Prop
  | only {name : String} (h : candidates = [name]) : Means candidates place name
  | primary {name : String} (hseveral : candidates.length ≠ 1)
      (h : state.primaries candidates = [name]) : Means candidates place name
  | named {wanted name : String} {before behind : List String} (hseveral : candidates.length ≠ 1)
      (hprimary : (state.primaries candidates).length ≠ 1) (hplace : place = some wanted)
      (hsplit : candidates = before ++ name :: behind) (hname : state.GoesBy name wanted)
      (hfirst : ∀ other ∈ before, ¬ state.GoesBy other wanted) : Means candidates place name

/-- The candidate that is meant, if one is. -/
def meant (candidates : List String) (place : Option String) : Option String :=
  match candidates with
  | [only] => some only
  | names => state.chooseCandidate names place

variable {state} {candidates : List String} {place : Option String} {name wanted : String}

/-- What a name is compared with is the bean's own name and its aliases. -/
theorem goesBy_iff :
    (name == wanted || (state.aliasesOf name).contains wanted) = true ↔ state.GoesBy name wanted := by
  unfold GoesBy Hop
  rw [Bool.or_eq_true, beq_iff_eq, List.contains_iff_mem, Table.find?_eq_some_iff_mem]
  simp [aliasesOf]

/-- By its name, the first candidate is chosen that goes by it. -/
theorem chooseCandidate_of_primaries (h : (state.primaries candidates).length ≠ 1) :
    state.chooseCandidate candidates place = place.bind fun wanted =>
      candidates.find? fun name => name == wanted || (state.aliasesOf name).contains wanted := by
  unfold chooseCandidate
  split
  · next primary hprimary =>
    refine absurd ?_ h
    unfold primaries
    rw [hprimary]
    rfl
  · rfl

theorem chooseCandidate_of_primary (h : state.primaries candidates = [name]) :
    state.chooseCandidate candidates place = some name := by
  unfold primaries at h
  unfold chooseCandidate
  rw [h]

theorem meant_of_several (h : candidates.length ≠ 1) :
    state.meant candidates place = state.chooseCandidate candidates place := by
  unfold meant
  split
  · exact absurd rfl h
  · rfl

/-- **What is meant is told by the rules.** -/
theorem meant_eq_some_iff : state.meant candidates place = some name ↔ state.Means candidates place name := by
  by_cases hone : candidates.length = 1
  · obtain ⟨only, rfl⟩ := List.length_eq_one_iff.mp hone
    constructor
    · intro h
      exact .only (congrArg (fun name => [name]) (Option.some.inj h))
    · rintro (h | ⟨hseveral, -⟩ | ⟨hseveral, -⟩)
      · exact congrArg some (List.singleton_injective h)
      · exact absurd rfl hseveral
      · exact absurd rfl hseveral
  rw [meant_of_several hone]
  by_cases hprimary : (state.primaries candidates).length = 1
  · obtain ⟨primary, hprimaries⟩ := List.length_eq_one_iff.mp hprimary
    rw [chooseCandidate_of_primary hprimaries]
    constructor
    · intro h
      exact .primary hone (Option.some.inj h ▸ hprimaries)
    · rintro (h | ⟨-, h⟩ | ⟨-, hnone, -⟩)
      · exact absurd (congrArg List.length h) hone
      · rw [hprimaries] at h
        exact congrArg some (List.singleton_injective h)
      · exact absurd hprimary hnone
  -- neither the only one nor the only primary one, so the name of the place decides
  rw [chooseCandidate_of_primaries hprimary]
  constructor
  · intro h
    obtain ⟨wanted, hplace, hfound⟩ := Option.bind_eq_some_iff.mp h
    obtain ⟨hname, before, behind, hsplit, hfirst⟩ := List.find?_eq_some_iff_append.mp hfound
    refine .named hone hprimary hplace hsplit (goesBy_iff.mp hname) fun other hother hgoes => ?_
    have hnot := hfirst other hother
    rw [goesBy_iff.mpr hgoes] at hnot
    cases hnot
  · rintro (h | ⟨-, h⟩ | @⟨wanted, _, before, behind, -, -, hplace, hsplit, hname, hfirst⟩)
    · exact absurd (congrArg List.length h) hone
    · exact absurd (congrArg List.length h) hprimary
    · refine Option.bind_eq_some_iff.mpr ⟨wanted, hplace, List.find?_eq_some_iff_append.mpr
        ⟨goesBy_iff.mpr hname, before, behind, hsplit, fun other hother => ?_⟩⟩
      rw [Bool.not_eq_true', ← Bool.not_eq_true, goesBy_iff]
      exact hfirst other hother

/-- None is meant of several of which not one alone is primary and none goes by the name of the place. -/
theorem meant_eq_none_iff : state.meant candidates place = none ↔
    candidates.length ≠ 1 ∧ (state.primaries candidates).length ≠ 1 ∧
      ∀ wanted, place = some wanted → ∀ name ∈ candidates, ¬ state.GoesBy name wanted := by
  by_cases hone : candidates.length = 1
  · obtain ⟨only, rfl⟩ := List.length_eq_one_iff.mp hone
    exact iff_of_false (Option.some_ne_none only) fun h => h.1 rfl
  rw [meant_of_several hone, and_iff_right hone]
  by_cases hprimary : (state.primaries candidates).length = 1
  · obtain ⟨primary, hprimaries⟩ := List.length_eq_one_iff.mp hprimary
    rw [chooseCandidate_of_primary hprimaries]
    exact iff_of_false (Option.some_ne_none primary) fun h => h.1 hprimary
  rw [chooseCandidate_of_primaries hprimary, and_iff_right hprimary, Option.bind_eq_none_iff]
  refine forall₂_congr fun wanted _ => ?_
  rw [List.find?_eq_none]
  exact forall₂_congr fun name _ => not_congr goesBy_iff

/-- The candidate that is meant is one of them. -/
theorem Means.mem (h : state.Means candidates place name) : name ∈ candidates := by
  rcases h with h | ⟨-, h⟩ | ⟨-, -, -, h, -⟩
  · exact h ▸ List.mem_singleton_self _
  · refine (List.mem_filter.mp (?_ : name ∈ state.primaries candidates)).1
    exact h ▸ List.mem_singleton_self _
  · exact h ▸ List.mem_append_right _ List.mem_cons_self

/-- What is meant is a matter of the definitions and the aliases. -/
theorem meant_congr {other : State} (h : other.SameSources state) :
    state.meant candidates place = other.meant candidates place := by
  unfold meant chooseCandidate definition? aliasesOf
  simp only [h.1, h.2, World.canonicalName_congr h.2]

end State

/-- Choosing is done by what is meant. -/
theorem chooseOne_apply (registry : Registry) (type : ValueType) (candidates : List String)
    (place : Option String) (world : World) :
    chooseOne registry type candidates place world =
      match (world.state registry.index).meant candidates place with
      | some name => (.ok name, world)
      | none => (.error (.failure (.noUniqueBean type.name candidates)), world) := by
  unfold chooseOne
  split
  · rfl
  · next hnot =>
    have hseveral : candidates.length ≠ 1 := fun hone =>
      (List.length_eq_one_iff.mp hone).elim hnot
    rw [Work.state_bind_apply, State.meant_of_several hseveral]
    cases (world.state registry.index).chooseCandidate candidates place <;> rfl

/-- Choosing reads the world and chooses one of the candidates. -/
theorem chooseOne_eq_ok {registry : Registry} {type : ValueType} {candidates : List String}
    {place : Option String} {chosen : String} {world after : World}
    (h : chooseOne registry type candidates place world = (.ok chosen, after)) :
    chosen ∈ candidates ∧ after = world := by
  rw [chooseOne_apply] at h
  cases hmeant : (world.state registry.index).meant candidates place with
  | none =>
    rw [hmeant] at h
    cases h
  | some name =>
    rw [hmeant] at h
    cases h
    exact ⟨(State.meant_eq_some_iff.mp hmeant).mem, rfl⟩

/-! ## Injecting what is meant -/

section

variable {fetch : Fetch} {registry : Registry} {ancestors : Chain} {dependency : Dependency}
  {converter : Converter} {candidates names : List String} {value : Value} {world after : World}

/-- It is a failure that none is meant, and nobody is asked for a bean. -/
theorem inject_of_none_meant (hshape : dependency.shape = .single)
    (hnone : (world.state registry.index).meant candidates dependency.name = none) (fetch : Fetch) :
    inject fetch registry ancestors dependency converter candidates world =
      (.ok ([], .error (.noUniqueBean dependency.type.name candidates)), world) := by
  have hchoose := chooseOne_apply registry dependency.type candidates dependency.name world
  rw [hnone] at hchoose
  unfold inject
  rw [hshape]
  dsimp only
  rw [Work.bind_apply]
  unfold Work.attempt
  rw [hchoose]
  rfl

/-- What is injected if one candidate is meant: its bean, converted, if it is had. -/
def injectedFor (dependency : Dependency) (converter : Converter) (chosen : String) :
    Except Failure Value → List String × Except Failure Value
  | .error failure => ([], .error failure)
  | .ok bean => ([chosen], converter bean dependency.type)

/-- The one that is meant is had and converted. -/
theorem inject_of_meant (hshape : dependency.shape = .single) {chosen : String}
    (hmeant : (world.state registry.index).meant candidates dependency.name = some chosen)
    (fetch : Fetch) :
    inject fetch registry ancestors dependency converter candidates world =
      (Work.attempt (fetch (registry :: ancestors) chosen) >>= fun result =>
        pure (injectedFor dependency converter chosen result)) world := by
  have hchoose := chooseOne_apply registry dependency.type candidates dependency.name world
  rw [hmeant] at hchoose
  unfold inject
  rw [hshape]
  refine (Work.bind_apply_ok (Work.attempt_apply_ok hchoose)).trans ?_
  refine congrFun (congrArg (Work.attempt (fetch (registry :: ancestors) chosen) >>= ·)
    (funext fun result => ?_)) world
  cases result <;> rfl

/-- A single place is given the one that is meant. -/
theorem inject_single_eq_ok_iff (hshape : dependency.shape = .single) :
    inject fetch registry ancestors dependency converter candidates world =
        (.ok (names, .ok value), after) ↔
      ∃ chosen bean, names = [chosen] ∧
        (world.state registry.index).meant candidates dependency.name = some chosen ∧
        fetch (registry :: ancestors) chosen world = (.ok bean, after) ∧
        converter bean dependency.type = .ok value := by
  cases hmeant : (world.state registry.index).meant candidates dependency.name with
  | none =>
    rw [inject_of_none_meant hshape hmeant]
    refine iff_of_false (fun h => ?_) fun ⟨_, _, _, hsome, _⟩ => Option.some_ne_none _ hsome.symm
    cases h
  | some chosen =>
    rw [inject_of_meant hshape hmeant, Work.bind_pure_eq_ok_iff]
    constructor
    · rintro ⟨result, hhad, hresult⟩
      cases result with
      | error failure => cases hresult
      | ok bean =>
        obtain ⟨rfl, hvalue⟩ := Prod.mk.inj hresult
        exact ⟨chosen, bean, rfl, rfl, Work.attempt_eq_ok hhad, hvalue⟩
    · rintro ⟨other, bean, rfl, hother, hhad, hvalue⟩
      obtain rfl := Option.some.inj hother
      exact ⟨_, Work.attempt_apply_ok hhad, congrArg (Prod.mk [chosen]) hvalue⟩

/-- All of some beans are had if the first one is, and then all of the others. -/
theorem fetchAll_cons_eq_ok_iff {chain : Chain} {name : String} {rest : List String}
    {had : List (String × Value)} :
    fetchAll fetch chain (name :: rest) world = (.ok (had, .ok ()), after) ↔
      ∃ bean between others, fetch chain name world = (.ok bean, between) ∧
        fetchAll fetch chain rest between = (.ok (others, .ok ()), after) ∧
        had = (name, bean) :: others := by
  constructor
  · intro h
    obtain ⟨result, between, hfirst, h⟩ := Work.bind_eq_ok h
    cases result with
    | error failure => cases h
    | ok bean =>
      obtain ⟨⟨others, outcome⟩, final, hrest, h⟩ := Work.bind_eq_ok h
      cases h
      exact ⟨bean, between, others, Work.attempt_eq_ok hfirst, hrest, rfl⟩
  · rintro ⟨bean, between, others, hfirst, hrest, rfl⟩
    unfold fetchAll
    rw [Work.bind_apply_ok (Work.attempt_apply_ok hfirst)]
    dsimp only
    rw [Work.bind_apply_ok hrest]
    rfl

/-- What is made of all beans is made if all of them are had. -/
theorem fetchAll_bind_eq_ok_iff {chain : Chain} (result : List (String × Value) → Value) :
    (fetchAll fetch chain candidates >>= fun all =>
        pure (all.1.map Prod.fst, all.2.map fun _ => result all.1)) world =
        (.ok (names, .ok value), after) ↔
      ∃ had, names = had.map Prod.fst ∧
        fetchAll fetch chain candidates world = (.ok (had, .ok ()), after) ∧ value = result had := by
  constructor
  · intro h
    obtain ⟨⟨had, outcome⟩, between, hhad, h⟩ := Work.bind_eq_ok h
    cases outcome with
    | error failure => cases h
    | ok _ =>
      cases h
      exact ⟨had, rfl, hhad, rfl⟩
  · rintro ⟨had, rfl, hhad, rfl⟩
    rw [Work.bind_apply_ok hhad]
    rfl

/-- A list is given all of them. -/
theorem inject_list_eq_ok_iff (hshape : dependency.shape = .list) :
    inject fetch registry ancestors dependency converter candidates world =
        (.ok (names, .ok value), after) ↔
      ∃ had, names = had.map Prod.fst ∧
        fetchAll fetch (registry :: ancestors) candidates world = (.ok (had, .ok ()), after) ∧
        value = .list (had.map Prod.snd) := by
  unfold inject
  rw [hshape]
  dsimp only
  exact fetchAll_bind_eq_ok_iff fun had => .list (had.map Prod.snd)

/-- A map is given all of them by their names. -/
theorem inject_map_eq_ok_iff (hshape : dependency.shape = .map) :
    inject fetch registry ancestors dependency converter candidates world =
        (.ok (names, .ok value), after) ↔
      ∃ had, names = had.map Prod.fst ∧
        fetchAll fetch (registry :: ancestors) candidates world = (.ok (had, .ok ()), after) ∧
        value = .mapOf (had.map fun entry => (.text entry.1, entry.2)) := by
  unfold inject
  rw [hshape]
  dsimp only
  exact fetchAll_bind_eq_ok_iff fun had => .mapOf (had.map fun entry => (.text entry.1, entry.2))

end

end Injector
