import Injector.Container.World

/-!
# What work leaves as it was

Work on the world is put together from a few pieces: doing one thing after the other, giving a failure
as a result, rewording a failure. A property of work that passes through all of these
(`Work.Compositional`) is settled by the pieces alone.

The property that is needed most is `Work.Keeps`: the world before and the world after stand in a
relation, whatever came of the work. It is compositional for every relation that is reflexive and
transitive. Failures undo nothing here, so nothing has to be said about them separately.
-/

namespace Injector

namespace Work

variable {α β : Type}

/-! ## Doing work in a world -/

theorem bind_apply (work : Work α) (next : α → Work β) (world : World) :
    (work >>= next) world =
      match work world with
      | (.ok value, after) => next value after
      | (.error stop, after) => (.error stop, after) := by
  show (work.bind next) world = _
  unfold ExceptT.bind ExceptT.mk
  simp only [bind, StateT.bind]
  rcases work world with ⟨result, after⟩
  cases result <;> rfl

/-- If the first thing succeeds, its result and its world are handed on. -/
theorem bind_apply_ok {work : Work α} {next : α → Work β} {world after : World} {value : α}
    (h : work world = (.ok value, after)) : (work >>= next) world = next value after := by
  rw [bind_apply, h]

/-- If the first thing fails, the rest is not done. -/
theorem bind_apply_error {work : Work α} {next : α → Work β} {world after : World} {stop : Stop}
    (h : work world = (.error stop, after)) : (work >>= next) world = (.error stop, after) := by
  rw [bind_apply, h]

/-- What depends on the world is done with the world as it is. -/
theorem get_bind_apply (next : World → Work β) (world : World) :
    ((get : Work World) >>= next) world = next world world :=
  rfl

theorem set_bind_apply (after : World) (next : PUnit → Work β) (world : World) :
    ((set after : Work PUnit) >>= next) world = next ⟨⟩ after :=
  rfl

theorem state_bind_apply (registry : Registry) (next : State → Work β) (world : World) :
    (Work.state registry >>= next) world = next (world.state registry.index) world :=
  rfl

theorem state_apply (registry : Registry) (world : World) :
    Work.state registry world = (.ok (world.state registry.index), world) :=
  rfl

/-- Work succeeds as a whole if both of its parts do. -/
theorem bind_eq_ok {work : Work α} {next : α → Work β} {world final : World} {result : β}
    (h : (work >>= next) world = (.ok result, final)) :
    ∃ value after, work world = (.ok value, after) ∧ next value after = (.ok result, final) := by
  rw [bind_apply] at h
  rcases hw : work world with ⟨outcome, after⟩
  rw [hw] at h
  cases outcome with
  | error stop => cases h
  | ok value => exact ⟨value, after, rfl, h⟩

theorem pure_eq_ok_iff {value result : α} {world after : World} :
    (pure value : Work α) world = (.ok result, after) ↔ value = result ∧ world = after := by
  constructor
  · intro h
    cases h
    exact ⟨rfl, rfl⟩
  · rintro ⟨rfl, rfl⟩
    rfl

theorem bind_eq_ok_iff {work : Work α} {next : α → Work β} {world final : World} {result : β} :
    (work >>= next) world = (.ok result, final) ↔
      ∃ value after, work world = (.ok value, after) ∧ next value after = (.ok result, final) := by
  constructor
  · exact bind_eq_ok
  · rintro ⟨value, after, hwork, hnext⟩
    rw [bind_apply_ok hwork, hnext]

/-- Changing a result with nothing else to do. -/
theorem bind_pure_eq_ok_iff {work : Work α} {change : α → β} {world after : World} {result : β} :
    (work >>= fun value => pure (change value)) world = (.ok result, after) ↔
      ∃ value, work world = (.ok value, after) ∧ change value = result := by
  simp only [bind_eq_ok_iff, pure_eq_ok_iff]
  constructor
  · rintro ⟨value, _, hwork, heq, rfl⟩
    exact ⟨value, hwork, heq⟩
  · rintro ⟨value, hwork, heq⟩
    exact ⟨value, after, hwork, heq, rfl⟩

/-- The failure that an outcome is, if it is one. -/
def failure? : Except Stop α → Option Failure
  | .error (.failure failure) => some failure
  | _ => none

theorem failure?_eq_some {outcome : Except Stop α} {failure : Failure} :
    failure? outcome = some failure ↔ outcome = .error (.failure failure) := by
  rcases outcome with (cause | _) | value <;> simp [failure?]

/-- Leaving out the result changes nothing else. -/
theorem discard_apply (work : Work α) (world : World) : (discard work world).2 = (work world).2 := by
  show (((fun _ => ⟨⟩) <$> work : Work PUnit) world).2 = _
  rw [← bind_pure_comp, bind_apply]
  rcases work world with ⟨stop | value, after⟩ <;> rfl

/-- A result that is changed is one that there is. -/
theorem map_eq_ok {work : Work α} {change : α → β} {world after : World} {result : β}
    (h : (change <$> work : Work β) world = (.ok result, after)) :
    ∃ value, work world = (.ok value, after) ∧ result = change value := by
  rw [← bind_pure_comp] at h
  obtain ⟨value, between, hwork, h⟩ := bind_eq_ok h
  cases h
  exact ⟨value, hwork, rfl⟩

/-- What succeeds without its result succeeds with it. -/
theorem discard_eq_ok {work : Work α} {world after : World}
    (h : discard work world = (.ok ⟨⟩, after)) : ∃ value, work world = (.ok value, after) := by
  have hmap : ((fun _ => ⟨⟩) <$> work : Work PUnit) world = (.ok ⟨⟩, after) := h
  obtain ⟨value, hwork, -⟩ := map_eq_ok hmap
  exact ⟨value, hwork⟩

/-- Work that was done for the first values goes on with the rest. -/
theorem forM_append_apply {work : α → Work PUnit} {between : World} {rest : List α} :
    ∀ {done : List α} {world : World}, done.forM work world = (.ok ⟨⟩, between) →
      (done ++ rest).forM work world = rest.forM work between
  | [], _, h => by
    cases h
    rfl
  | first :: done, world, h => by
    obtain ⟨⟨⟩, after, hfirst, hdone⟩ := bind_eq_ok h
    change (work first >>= fun _ => (done ++ rest).forM work) world = _
    rw [bind_apply_ok hfirst]
    exact forM_append_apply hdone

/-- Work that is done for one value after the other fails at one of them, after it was done for those
before it. -/
theorem forM_eq_error {work : α → Work PUnit} {stop : Stop} {final : World} :
    ∀ {values : List α} {world : World}, values.forM work world = (.error stop, final) →
      ∃ done value rest between, values = done ++ value :: rest ∧
        done.forM work world = (.ok ⟨⟩, between) ∧ work value between = (.error stop, final)
  | [], _, h => by cases h
  | first :: values, world, h => by
    change (work first >>= fun _ => values.forM work) world = _ at h
    rw [bind_apply] at h
    rcases hfirst : work first world with ⟨outcome, after⟩
    rw [hfirst] at h
    cases outcome with
    | error stop' => exact ⟨[], first, values, world, rfl, rfl, hfirst.trans h⟩
    | ok _ =>
      obtain ⟨done, value, rest, between, rfl, hdone, hvalue⟩ := forM_eq_error h
      refine ⟨first :: done, value, rest, between, rfl, ?_, hvalue⟩
      change (work first >>= fun _ => done.forM work) world = _
      rw [bind_apply_ok hfirst]
      exact hdone

/-- A result that is taken is the one that there is. -/
theorem ofStop_eq_ok {result : Except Stop α} {world after : World} {value : α}
    (h : ofStop result world = (.ok value, after)) : result = .ok value ∧ after = world := by
  cases result with
  | error stop => cases h
  | ok result =>
    cases h
    exact ⟨rfl, rfl⟩

/-- Rewording leaves success as it is. -/
theorem explain_apply_ok {work : Work α} (reword : Failure → Failure) {world after : World} {value : α}
    (h : work world = (.ok value, after)) : work.explain reword world = (.ok value, after) := by
  unfold explain
  rw [h]

/-- What succeeds after rewording succeeds without. -/
theorem explain_eq_ok {work : Work α} {reword : Failure → Failure} {world after : World} {value : α}
    (h : work.explain reword world = (.ok value, after)) : work world = (.ok value, after) := by
  unfold explain at h
  rcases hrun : work world with ⟨(failure | _) | result, after'⟩ <;> rw [hrun] at h
  · cases h
  · exact h
  · exact h

/-- What succeeds when its failure is taken as a result succeeds. -/
theorem attempt_eq_ok {work : Work α} {world after : World} {value : α}
    (h : work.attempt world = (.ok (.ok value), after)) : work world = (.ok value, after) := by
  unfold attempt at h
  rcases hrun : work world with ⟨(failure | _) | result, after'⟩ <;> rw [hrun] at h
  · cases h
  · cases h
  · cases h
    rfl

/-- Success stays success when failure is taken as a result. -/
theorem attempt_apply_ok {work : Work α} {world after : World} {value : α}
    (h : work world = (.ok value, after)) : work.attempt world = (.ok (.ok value), after) := by
  unfold attempt
  rw [h]

/-- Rewording leaves the world as it was left. -/
theorem explain_apply_snd (work : Work α) (reword : Failure → Failure) (world : World) :
    (work.explain reword world).2 = (work world).2 := by
  unfold explain
  rcases work world with ⟨(failure | _) | value, after⟩ <;> rfl

/-- What holds after the first thing and is kept by the second holds after both. -/
theorem bind_preserves {P : World → Prop} {work : Work α} {next : α → Work β} {world : World}
    (h : P (work world).2)
    (hnext : ∀ value after, work world = (.ok value, after) → P after → P (next value after).2) :
    P ((work >>= next) world).2 := by
  rw [bind_apply]
  rcases hrun : work world with ⟨stop | value, after⟩ <;> rw [hrun] at h
  · exact h
  · exact hnext value after hrun h

/-- Rewording changes nothing but the failure. -/
theorem explain_apply_error {work : Work α} (reword : Failure → Failure) {world after : World}
    {stop : Stop} (h : work world = (.error stop, after)) :
    ∃ stop', work.explain reword world = (.error stop', after) := by
  unfold explain
  rw [h]
  cases stop with
  | failure failure => exact ⟨_, rfl⟩
  | tooDeep => exact ⟨_, rfl⟩

/-- It makes no difference whether a result is changed before or after a failure is reworded. -/
theorem explain_map (reword : Failure → Failure) (change : α → β) (work : Work α) :
    (change <$> work).explain reword = change <$> work.explain reword := by
  funext world
  rw [← bind_pure_comp, ← bind_pure_comp, bind_apply]
  unfold explain
  rw [bind_apply]
  rcases work world with ⟨(failure | _) | value, after⟩ <;> rfl

/-! ## Properties that pass through the pieces -/

/-- A property that work has if its parts have it. Nothing is said about work that is stopped for its
depth. -/
structure Composable (K : (α : Type) → Work α → Prop) : Prop where
  pure : ∀ {α : Type} (value : α), K α (pure value)
  fail : ∀ {α : Type} (failure : Failure), K α (fail failure)
  get : K World get
  bind : ∀ {α β : Type} {work : Work α} {next : α → Work β},
    K α work → (∀ value, K β (next value)) → K β (work >>= next)
  attempt : ∀ {α : Type} {work : Work α}, K α work → K (Except Failure α) work.attempt
  explain : ∀ {α : Type} {work : Work α} (reword : Failure → Failure),
    K α work → K α (work.explain reword)

/-- Such a property that work has as well if it is stopped for its depth. -/
structure Compositional (K : (α : Type) → Work α → Prop) : Prop extends Composable K where
  tooDeep : ∀ {α : Type}, K α (throw .tooDeep)

namespace Composable

variable {K : (α : Type) → Work α → Prop} (hK : Composable K)

include hK

theorem ofExcept (result : Except Failure α) : K α (ofExcept result) := by
  cases result with
  | ok value => exact hK.pure value
  | error failure => exact hK.fail failure

theorem state (registry : Registry) : K State (state registry) :=
  hK.bind hK.get fun _ => hK.pure _

theorem map {work : Work α} (f : α → β) (h : K α work) : K β (f <$> work) := by
  rw [← bind_pure_comp]
  exact hK.bind h fun _ => hK.pure _

theorem discard {work : Work α} (h : K α work) : K PUnit (discard work) :=
  hK.map _ h

theorem forM {work : α → Work PUnit} :
    ∀ {values : List α}, (∀ value ∈ values, K PUnit (work value)) → K PUnit (values.forM work)
  | [], _ => hK.pure _
  | value :: _, h =>
    hK.bind (h value List.mem_cons_self) fun _ =>
      forM fun other hmem => h other (List.mem_cons_of_mem _ hmem)

theorem mapM {work : α → Work β} :
    ∀ {values : List α}, (∀ value ∈ values, K β (work value)) → K (List β) (values.mapM work)
  | [], _ => by
    rw [List.mapM_nil]
    exact hK.pure _
  | value :: _, h => by
    rw [List.mapM_cons]
    exact hK.bind (h value List.mem_cons_self) fun _ =>
      hK.bind (mapM fun other hmem => h other (List.mem_cons_of_mem _ hmem)) fun _ => hK.pure _

theorem filterM {test : α → Work Bool} (h : ∀ value, K Bool (test value)) (values : List α) :
    K (List α) (values.filterM test) := by
  have aux : ∀ rest kept : List α, K (List α) (rest.filterAuxM test kept) := by
    intro rest
    induction rest with
    | nil => exact fun kept => hK.pure _
    | cons value rest ih =>
      intro kept
      exact hK.bind (h value) fun _ => ih _
  exact hK.bind (aux values []) fun _ => hK.pure _

/-- A result that is taken whatever it is, but not one of being stopped for its depth. -/
theorem ofStop_of_ne {result : Except Stop α} (h : result ≠ .error .tooDeep) :
    K α (ofStop result) := by
  cases result with
  | ok value => exact hK.pure value
  | error stop =>
    cases stop with
    | failure failure => exact hK.fail failure
    | tooDeep => exact absurd rfl h

/-- Two such properties are one. -/
theorem and {K' : (α : Type) → Work α → Prop} (hK' : Composable K') :
    Composable fun α work => K α work ∧ K' α work where
  pure value := ⟨hK.pure value, hK'.pure value⟩
  fail failure := ⟨hK.fail failure, hK'.fail failure⟩
  get := ⟨hK.get, hK'.get⟩
  bind h hnext :=
    ⟨hK.bind h.1 fun value => (hnext value).1, hK'.bind h.2 fun value => (hnext value).2⟩
  attempt h := ⟨hK.attempt h.1, hK'.attempt h.2⟩
  explain reword h := ⟨hK.explain reword h.1, hK'.explain reword h.2⟩

end Composable

theorem Compositional.ofStop {K : (α : Type) → Work α → Prop} (hK : Compositional K)
    (result : Except Stop α) : K α (ofStop result) := by
  by_cases h : result = .error .tooDeep
  · rw [h]
    exact hK.tooDeep
  · exact hK.ofStop_of_ne h

/-! ## Relations between the worlds before and after -/

/-- Whatever comes of the work, the world after it is related to the world before. -/
def Keeps (R : World → World → Prop) (work : Work α) : Prop :=
  ∀ world, R world (work world).2

variable {R : World → World → Prop}

/-- Of a run, the world after it is related to the world before. -/
theorem Keeps.run {work : Work α} (h : Keeps R work) {world after : World} {result : Except Stop α}
    (hrun : work world = (result, after)) : R world after := by
  have hafter := h world
  rw [hrun] at hafter
  exact hafter

theorem keeps_update {registry : Registry} {change : State → State}
    (h : ∀ world, R world
      (world.withState registry.index (change (world.state registry.index)))) :
    Keeps R (update registry change) :=
  h

theorem keeps_note {event : Event} (h : ∀ world, R world (world.noting event)) :
    Keeps R (note event) :=
  h

theorem keeps_bind (htrans : ∀ a b c, R a b → R b c → R a c) {work : Work α}
    {next : α → Work β} (h : Keeps R work) (hnext : ∀ value, Keeps R (next value)) :
    Keeps R (work >>= next) := by
  intro world
  have hw := h world
  rw [bind_apply]
  rcases hrun : work world with ⟨stop | value, after⟩ <;> rw [hrun] at hw
  · exact hw
  · exact htrans _ _ _ hw (hnext value after)

theorem keeps_attempt {work : Work α} (h : Keeps R work) : Keeps R work.attempt := by
  intro world
  have hw := h world
  unfold attempt
  rcases hrun : work world with ⟨(failure | _) | value, after⟩ <;> rw [hrun] at hw <;> exact hw

theorem keeps_explain (reword : Failure → Failure) {work : Work α} (h : Keeps R work) :
    Keeps R (work.explain reword) := by
  intro world
  have hw := h world
  unfold explain
  rcases hrun : work world with ⟨(failure | _) | value, after⟩ <;> rw [hrun] at hw <;> exact hw

theorem keeps_endingWith (htrans : ∀ a b c, R a b → R b c → R a c) {work : Work α}
    {change : World → World} (h : Keeps R work) (hchange : ∀ world, R world (change world)) :
    Keeps R (work.endingWith change) := by
  intro world
  exact htrans _ _ _ (h world) (hchange _)

/-- Keeping a reflexive and transitive relation is a matter of the parts. -/
theorem compositional_keeps (hrefl : ∀ world, R world world)
    (htrans : ∀ a b c, R a b → R b c → R a c) :
    Compositional (fun _ work => Keeps R work) where
  pure _ := hrefl
  fail _ := hrefl
  tooDeep := hrefl
  get := hrefl
  bind := keeps_bind htrans
  attempt := keeps_attempt
  explain reword := keeps_explain reword

/-- Work that was done for all values was done for each of them, between the work for the others. -/
theorem forM_eq_ok (hrefl : ∀ world, R world world) (htrans : ∀ a b c, R a b → R b c → R a c)
    {work : α → Work PUnit} {final : World} {wanted : α} :
    ∀ {values : List α} {world : World}, (∀ value ∈ values, Keeps R (work value)) →
      values.forM work world = (.ok ⟨⟩, final) → wanted ∈ values →
      ∃ before after, R world before ∧ work wanted before = (.ok ⟨⟩, after) ∧ R after final
  | first :: values, world, hwork, h, hmem => by
    obtain ⟨⟨⟩, between, hfirst, hrest⟩ := bind_eq_ok h
    have hlater (value : α) (hvalue : value ∈ values) : Keeps R (work value) :=
      hwork value (List.mem_cons_of_mem _ hvalue)
    rcases List.mem_cons.mp hmem with rfl | hmem
    · have hdone : R between final :=
        ((compositional_keeps hrefl htrans).forM hlater).run hrest
      exact ⟨world, between, hrefl world, hfirst, hdone⟩
    · obtain ⟨before, after, hbefore, hdone, hafter⟩ := forM_eq_ok hrefl htrans hlater hrest hmem
      have hkept := (hwork first List.mem_cons_self).run hfirst
      exact ⟨before, after, htrans _ _ _ hkept hbefore, hdone, hafter⟩

/-- Keeping a property is a matter of the parts. -/
theorem compositional_preserves (P : World → Prop) :
    Compositional fun _ work => Keeps (fun world after => P world → P after) work :=
  compositional_keeps (fun _ h => h) fun _ _ _ hab hbc h => hbc (hab h)

end Work

end Injector
