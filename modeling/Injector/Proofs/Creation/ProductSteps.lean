import Injector.Proofs.Requests.StateRelations
import Mathlib.Logic.Relation

/-!
# What work does to singletons and products

However much work a container does, what happens to singletons and to the products that are kept is a
sequence of few kinds of steps (`ProductStep`). In between, a product may be given: a new one that is not
kept, one that is kept already, or a new one that is kept from then on. Every product that is new has
just been made by the factory that it is given for (`Made`).

`ProductStep.container` says so of all work of containers. What is to be shown of products is then a
matter of the steps.
-/

namespace Injector

open Relation

/-! ## Steps -/

/-- The product was made by the factory, or is what the post-processor of the container made of such a
product under the name. -/
def Made (family : Family) (journal : List Event) (index : Nat) (name : String) (label : BeanLabel)
    (product : Value) : Prop :=
  ∃ made, Event.produced label made ∈ journal ∧
    (product = made ∨ ∃ member : family.Member, member.registry.index = index ∧
      ∃ process, member.registry.postProcessor = some process ∧ process name made = .ok product)

/-- Whether a product was given. -/
def Event.IsGiven : Event → Prop
  | given .. => True
  | _ => False

/-- A step of the work of a container, as far as singletons and products are concerned. -/
inductive ProductStep (family : Family) (world after : World) : Prop
  /-- Singletons and products stay as they are, and none is given. -/
  | quiet (hsame : ∀ index, (after.state index).singletons = (world.state index).singletons ∧
        (after.state index).products = (world.state index).products)
      (new : List Event) (hjournal : after.journal = new ++ world.journal)
      (hnew : ∀ event ∈ new, ¬ event.IsGiven)
  | singleton (index : Nat) (name : String) (value : Value)
      (hafter : after = world.withState index
        { world.state index with
          singletons := (world.state index).singletons.insertNew name value })
  /-- A new product is given and not kept. -/
  | given (index : Nat) (name : String) (label : BeanLabel) (product : Value)
      (hmade : Made family world.journal index name label product)
      (hafter : after = world.noting (.given index name label product none))
  /-- The product that is kept is given. -/
  | reused (index : Nat) (name : String) (label : BeanLabel) (product holder : Value)
      (hholder : (world.state index).singletons.find? name = some holder)
      (hkept : (world.state index).products.find? name = some product)
      (hafter : after = world.noting (.given index name label product (some holder)))
  /-- A new product is given and kept. -/
  | kept (index : Nat) (name : String) (label : BeanLabel) (product holder : Value)
      (hholder : (world.state index).singletons.find? name = some holder)
      (hunkept : (world.state index).products.find? name = none)
      (hmade : Made family world.journal index name label product)
      (hafter : after = (world.withState index
        { world.state index with
          products := (world.state index).products.insertNew name product }).noting
            (.given index name label product (some holder)))

variable {family : Family} {world after : World}

theorem Made.mono {journal journal' : List Event} (hsub : journal ⊆ journal') {index : Nat}
    {name : String} {label : BeanLabel} {product : Value}
    (h : Made family journal index name label product) :
    Made family journal' index name label product := by
  obtain ⟨made, hproduced, hproduct⟩ := h
  exact ⟨made, hsub hproduced, hproduct⟩

namespace ProductStep

/-- A change of one state that leaves singletons and products as they are. -/
theorem quiet_withState {index : Nat} {state : State}
    (hsingletons : state.singletons = (world.state index).singletons)
    (hproducts : state.products = (world.state index).products) :
    ProductStep family world (world.withState index state) := by
  refine quiet (fun other => ?_) [] rfl fun _ hmem => nomatch hmem
  rw [World.state_withState]
  split
  · next he =>
    rw [he]
    exact ⟨hsingletons, hproducts⟩
  · exact ⟨rfl, rfl⟩

/-- A change that leaves all states as they are. -/
theorem quiet_states (hstates : after.states = world.states) (new : List Event)
    (hjournal : after.journal = new ++ world.journal) (hnew : ∀ event ∈ new, ¬ event.IsGiven) :
    ProductStep family world after := by
  refine quiet (fun index => ?_) new hjournal hnew
  unfold World.state
  rw [hstates]
  exact ⟨rfl, rfl⟩

/-- Something is noted that is not that a product was given. -/
theorem quiet_noting {event : Event} (h : ¬ event.IsGiven) :
    ProductStep family world (world.noting event) := by
  refine quiet_states rfl [event] rfl fun other hmem => ?_
  rw [List.mem_singleton.mp hmem]
  exact h

end ProductStep

/-! ## Making products -/

/-- Asking a factory makes a product and notes it, or makes none. -/
theorem newProduct_cases (label : BeanLabel) (maker : Factory Value) (world : World) :
    ∃ result after, newProduct label maker world = (result, after) ∧ after.states = world.states ∧
      ((∃ stop, result = .error stop ∧ after.journal = world.journal) ∨
        ∃ product, result = .ok product ∧ after.journal = .produced label product :: world.journal) := by
  obtain ⟨made, tallies, hafter⟩ := Work.askFactory_eq world label maker
  unfold newProduct
  rw [Work.get_bind_apply]
  rcases hrun : world.askFactory label maker with ⟨result, after⟩
  rw [hrun] at hafter
  dsimp only at hafter ⊢
  subst hafter
  rw [Work.set_bind_apply]
  cases result with
  | error failure => exact ⟨_, _, rfl, rfl, Or.inl ⟨_, rfl, rfl⟩⟩
  | ok product => exact ⟨_, _, rfl, rfl, Or.inr ⟨_, rfl, rfl⟩⟩

/-- A new product was just made by its factory. -/
theorem freshProduct_cases (member : family.Member) (label : BeanLabel) (maker : Factory Value)
    (name : String) (processed : Bool) (world : World) :
    ∃ result after, freshProduct member.registry label maker name processed world = (result, after) ∧
      after.states = world.states ∧
      (∃ new, after.journal = new ++ world.journal ∧ ∀ event ∈ new, ¬ event.IsGiven) ∧
      ∀ product, result = .ok product →
        Made family after.journal member.registry.index name label product := by
  obtain ⟨result, after, hrun, hstates, ⟨stop, rfl, hjournal⟩ | ⟨made, rfl, hjournal⟩⟩ :=
    newProduct_cases label maker world
  · obtain ⟨stop', hexplained⟩ := Work.explain_apply_error
      (fun cause => .creation none (some name) .factory (some cause)) hrun
    refine ⟨_, _, Work.bind_apply_error hexplained, hstates, ⟨[], hjournal, ?_⟩, ?_⟩
    · exact fun _ hmem => nomatch hmem
    · exact fun _ hok => nomatch hok
  · have hexplained := Work.explain_apply_ok
      (fun cause => .creation none (some name) .factory (some cause)) hrun
    have hnew : ∃ new, after.journal = new ++ world.journal ∧ ∀ event ∈ new, ¬ event.IsGiven := by
      refine ⟨[.produced label made], hjournal, fun event hmem => ?_⟩
      rw [List.mem_singleton.mp hmem]
      exact id
    have hproduced : Event.produced label made ∈ after.journal := by
      rw [hjournal]
      exact List.mem_cons_self
    -- unless a post-processor makes something else of it, it is the factory's own product
    have hself : Made family after.journal member.registry.index name label made :=
      ⟨made, hproduced, Or.inl rfl⟩
    unfold freshProduct
    rw [Work.bind_apply_ok hexplained]
    cases processed with
    | false =>
      refine ⟨_, _, rfl, hstates, hnew, fun product hok => ?_⟩
      cases hok
      exact hself
    | true =>
      rw [if_pos rfl]
      unfold postProcess
      cases hprocessor : member.registry.postProcessor with
      | none =>
        refine ⟨_, _, rfl, hstates, hnew, fun product hok => ?_⟩
        cases hok
        exact hself
      | some process =>
        dsimp only
        cases hprocessed : process name made with
        | error failure => exact ⟨_, _, rfl, hstates, hnew, fun _ hok => nomatch hok⟩
        | ok product =>
          refine ⟨_, _, rfl, hstates, hnew, fun product' hok => ?_⟩
          cases hok
          exact ⟨made, hproduced, Or.inr ⟨member, rfl, process, hprocessor, hprocessed⟩⟩

/-- Without a holder, nothing is shared. -/
theorem sharedProduct_none (registry : Registry) (name : String) (make : Work Value) :
    sharedProduct registry name none make = make :=
  rfl

/-- The product that is kept is shared. -/
theorem sharedProduct_kept {registry : Registry} {name : String} {holder product : Value}
    (make : Work Value) (hkept : (world.state registry.index).products.find? name = some product) :
    sharedProduct registry name (some holder) make world = (.ok product, world) := by
  unfold sharedProduct
  dsimp only
  rw [Work.state_bind_apply, hkept]
  rfl

/-- If none is kept, the one that is made is kept. -/
theorem sharedProduct_unkept {registry : Registry} {name : String} {holder product : Value}
    {make : Work Value} (hunkept : (world.state registry.index).products.find? name = none)
    (hmake : make world = (.ok product, after)) :
    sharedProduct registry name (some holder) make world =
      (.ok product, after.withState registry.index
        { after.state registry.index with
          products := (after.state registry.index).products.insertNew name product }) := by
  unfold sharedProduct
  dsimp only
  rw [Work.state_bind_apply, hunkept]
  dsimp only
  rw [Work.bind_apply_ok hmake]
  rfl

theorem sharedProduct_error {registry : Registry} {name : String} {holder : Value} {stop : Stop}
    {make : Work Value} (hunkept : (world.state registry.index).products.find? name = none)
    (hmake : make world = (.error stop, after)) :
    sharedProduct registry name (some holder) make world = (.error stop, after) := by
  unfold sharedProduct
  dsimp only
  rw [Work.state_bind_apply, hunkept]
  dsimp only
  rw [Work.bind_apply_error hmake]

/-- A product that is had was kept, or it was made, and then it is kept if it may be shared and there is a
holder for it. -/
theorem productOf_eq_ok_cases {registry : Registry} {label : BeanLabel} {maker : Factory Value}
    {name : String} {processed : Bool} {product : Value}
    (h : productOf registry label maker name processed world = (.ok product, after)) :
    (after.states = world.states ∧
        (world.state registry.index).products.find? name = some product ∧
        ∃ holder, (world.state registry.index).singletons.find? name = some holder) ∨
      ∃ made, freshProduct registry label maker name processed world = (.ok product, made) ∧
        (maker.singleton = true → ∀ holder,
          (world.state registry.index).singletons.find? name = some holder →
          (after.state registry.index).products.find? name = some product) := by
  unfold productOf at h
  rw [Work.state_bind_apply] at h
  obtain ⟨given, between, hproduct, hgiven⟩ := Work.bind_eq_ok h
  obtain ⟨_, _, hnote, hend⟩ := Work.bind_eq_ok hgiven
  cases hnote
  cases hend
  cases hholder : (if maker.singleton then
      (world.state registry.index).singletons.find? name else none) with
  | none =>
    rw [hholder, sharedProduct_none] at hproduct
    refine .inr ⟨between, hproduct, fun hshared holder hkept => ?_⟩
    rw [hshared, if_pos rfl, hkept] at hholder
    cases hholder
  | some holder =>
    rw [hholder] at hproduct
    have hfound : (world.state registry.index).singletons.find? name = some holder := by
      split at hholder
      · exact hholder
      · cases hholder
    cases hproducts : (world.state registry.index).products.find? name with
    | some shared =>
      rw [sharedProduct_kept _ hproducts] at hproduct
      cases hproduct
      exact .inl ⟨rfl, rfl, holder, hfound⟩
    | none =>
      obtain ⟨result, made, hrun, hstates, -, -⟩ :=
        freshProduct_cases (Registry.lone registry) label maker name processed world
      change freshProduct registry label maker name processed world = _ at hrun
      cases result with
      | error stop =>
        rw [sharedProduct_error hproducts hrun] at hproduct
        cases hproduct
      | ok fresh =>
        rw [sharedProduct_unkept hproducts hrun] at hproduct
        cases hproduct
        refine .inr ⟨made, hrun, fun _ _ _ => ?_⟩
        -- making it kept nothing, so it is the first of the name
        have hsame : made.state registry.index = world.state registry.index := by
          unfold World.state
          rw [hstates]
        show ((made.withState registry.index _).state registry.index).products.find? name = _
        rw [World.state_withState, if_pos rfl, Table.find?_insertNew, if_pos rfl, hsame, hproducts]
        rfl

/-- Having the product of a factory takes steps. -/
theorem productOf_steps (member : family.Member) (label : BeanLabel) (maker : Factory Value)
    (name : String) (processed : Bool) :
    (productOf member.registry label maker name processed).Keeps
      (ReflTransGen (ProductStep family)) := by
  intro world
  obtain ⟨result, after, hrun, hstates, ⟨new, hjournal, hnew⟩, hmade⟩ :=
    freshProduct_cases member label maker name processed world
  have hquiet : ProductStep family world after := .quiet_states hstates new hjournal hnew
  have hstate : after.state member.registry.index = world.state member.registry.index := by
    unfold World.state
    rw [hstates]
  unfold productOf
  rw [Work.state_bind_apply]
  cases hholder : (if maker.singleton then
      (world.state member.registry.index).singletons.find? name else none) with
  | none =>
    cases result with
    | error stop =>
      rw [sharedProduct_none, Work.bind_apply_error hrun]
      exact .single hquiet
    | ok product =>
      rw [sharedProduct_none, Work.bind_apply_ok hrun]
      exact .tail (.single hquiet) (.given _ name label product (hmade product rfl) rfl)
  | some holder =>
    have hfound : (world.state member.registry.index).singletons.find? name = some holder := by
      split at hholder
      · exact hholder
      · cases hholder
    cases hkept : (world.state member.registry.index).products.find? name with
    | some product =>
      -- the factory is not asked, so that it is the holder's product is all that is known of it
      rw [Work.bind_apply_ok (sharedProduct_kept _ hkept)]
      exact .single (.reused _ name label product holder hfound hkept rfl)
    | none =>
      cases result with
      | error stop =>
        rw [Work.bind_apply_error (sharedProduct_error hkept hrun)]
        exact .single hquiet
      | ok product =>
        rw [Work.bind_apply_ok (sharedProduct_unkept hkept hrun)]
        rw [← hstate] at hfound hkept
        exact .tail (.single hquiet)
          (.kept _ name label product holder hfound hkept (hmade product rfl) rfl)

/-! ## All work -/

/-- Keeping merged definitions is quiet. -/
theorem ProductStep.quiet_keepMerged (additions : List (Nat × String × Definition)) (world : World) :
    ProductStep family world (world.keepMerged additions) := by
  refine quiet ?_ [] (World.journal_keepMerged additions world) fun _ hmem => nomatch hmem
  exact Statewise.keepMerged
    (Q := fun state after => after.singletons = state.singletons ∧ after.products = state.products)
    (fun _ => ⟨rfl, rfl⟩) (fun _ _ _ hab hbc => ⟨hbc.1.trans hab.1, hbc.2.trans hab.2⟩)
    (fun _ _ _ => ⟨rfl, rfl⟩) additions world

/-- **All work of containers takes such steps.** -/
theorem ProductStep.container (family : Family) :
    Container family fun _ work => work.Keeps (ReflTransGen (ProductStep family)) where
  toCompositional := Work.compositional_keeps (fun _ => .refl) fun _ _ _ hab hbc => hab.trans hbc
  served _ _ _ _ := .single (quiet_noting id)
  named _ _ _ _ := .single (quiet_noting id)
  learn owner steps lesson world := by
    cases owner with
    | nothing => exact .refl
    | bench => exact .single (quiet_states rfl [] rfl fun _ hmem => nomatch hmem)
    | merged index name => exact .single (quiet_withState rfl rfl)
  noteDependent _ _ _ := Work.keeps_noteDependent fun _ _ _ _ => .single (quiet_withState rfl rfl)
  noteContained _ _ _ := Work.keeps_noteContained fun _ _ _ _ => .single (quiet_withState rfl rfl)
  merged _ _ := Work.keeps_takeMerged (fun _ => .refl) fun world merged _ =>
    .single (quiet_keepMerged merged.additions world)
  mergedNested _ _ _ _ := Work.keeps_takeMerged (fun _ => .refl) fun world merged _ =>
    .single (quiet_keepMerged merged.additions world)
  construct _ _ _ _ _ := Work.keeps_construct fun world made construction => by
    refine .single (quiet_states rfl [.constructed construction] rfl fun event hmem => ?_)
    rw [List.mem_singleton.mp hmem]
    exact id
  product hf label maker name processed := productOf_steps ⟨_, _, hf⟩ label maker name processed
  guarded _ _ _ hwork :=
    Work.keeps_guarded (fun _ => .refl) (fun _ _ _ hab hbc => hab.trans hbc) hwork fun _ _ =>
      .single (quiet_withState rfl rfl)
  singletonOr _ name _ hcreate :=
    Work.keeps_singletonOr (fun _ => .refl) (fun _ _ _ hab hbc => hab.trans hbc) hcreate
      fun _ made => .single (.singleton _ name made rfl)

/-- Answering an inquiry takes such steps. -/
theorem Inquiry.productSteps (member : family.Member) (depth : Nat) (inquiry : Inquiry) :
    (inquiry.answer depth member.registry member.ancestors).Keeps
      (ReflTransGen (ProductStep family)) :=
  (ProductStep.container family).answer member.has
    (fun _ _ => .single (.quiet_states rfl [] rfl fun _ hmem => nomatch hmem)) depth inquiry

end Injector
