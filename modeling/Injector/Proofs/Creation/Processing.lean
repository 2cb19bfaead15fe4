import Injector.Proofs.Creation.ProductSteps
import Injector.Proofs.Creation.Renewal
import Injector.Proofs.Merging.Cache

/-!
# Products and the post-processor

A product passes the post-processor of its container when it is made, unless the definition of the factory
is synthetic. The flag is read from the merged definition if the factory is created for the request, and
from the registered one if it is kept already. Both say the same: a definition is never completed by the
flags of its parent, and whatever is kept of a merge has the flags of the definition that is registered
(`Reachable.flagsOwn`).

So having the bean of a name comes to holding its instance, kept or new, and then exposing it with the flag
of its own definition (`fetchBean_eq_hold`), however the instance came to be held
(`Chain.bean_processed`).
-/

namespace Injector

variable {family : Family}

/-! ## Flags -/

/-- The flags of a definition: whether it is synthetic, primary and lazy. -/
def DefinitionOf.flags {ρ : Type} (definition : DefinitionOf ρ) : Bool × Bool × Bool :=
  (definition.synthetic, definition.primary, definition.lazy)

/-- What is kept of a merge has the flags of the definition that is registered under the name. -/
def State.FlagsOwn (state : State) : Prop :=
  ∀ name kept, state.merged.find? name = some kept →
    ∃ own, state.definitions.find? name = some own ∧ kept.flags = own.flags

namespace World

/-- So it is in all containers of a family. -/
def FlagsOwn (family : Family) (world : World) : Prop :=
  ∀ member : family.Member, (world.state member.registry.index).FlagsOwn

/-- **What merging gives for a name that is defined has the flags of its own definition.** -/
theorem Descent.flags {world : World} (h : world.FlagsOwn family) {member : family.Member}
    {name : String} {further : Nat} {own merged : Definition}
    (hown : (world.state member.registry.index).definitions.find? name = some own)
    (hdescent : world.Descent member.chain name further merged) :
    merged.flags = own.flags := by
  unfold Family.Member.chain at hdescent
  cases hdescent with
  | kept hkept =>
    obtain ⟨own', hown', hflags⟩ := h member name _ hkept
    cases hown.symm.trans hown'
    exact hflags
  | root _ hdefined _ =>
    cases hown.symm.trans hdefined
    rfl
  | above _ hundefined _ => cases hown.symm.trans hundefined
  | near _ hdefined _ _ _ =>
    cases hown.symm.trans hdefined
    rfl
  | own _ hdefined _ _ _ =>
    cases hown.symm.trans hdefined
    rfl

/-- Work keeps definitions with the flags of the registered ones. -/
theorem FlagsOwn.keeping {world after : World} (h : world.FlagsOwn family)
    (hkeeping : World.Keeping family world after) : after.FlagsOwn family := by
  intro member name kept hkept
  obtain ⟨further, hdescent⟩ := hkeeping.descends member name kept hkept
  rw [(hkeeping.sources member.registry.index).1]
  rcases hkeeping.defined _ name (Table.contains_of_find? hkept) with hbefore | hdefined
  · obtain ⟨before, hbefore⟩ := (Table.contains_iff_find? _ _).mp hbefore
    obtain ⟨own, hown, -⟩ := h member name before hbefore
    exact ⟨own, hown, (hdescent.flags h hown : kept.bare.flags = own.flags)⟩
  · obtain ⟨own, hown⟩ := (Table.contains_iff_find? _ _).mp hdefined
    exact ⟨own, hown, (hdescent.flags h hown : kept.bare.flags = own.flags)⟩

end World

/-- **In every reachable world, what is kept of a merge has the flags of the definition that is
registered.** -/
theorem Reachable.flagsOwn {world : World} (h : Reachable family world) : world.FlagsOwn family := by
  refine Reachable.induction (P := fun world => world.FlagsOwn family) ?_ ?_ h
  · exact fun _ _ _ hkept => nomatch hkept
  · intro world operation _ hworld
    cases operation with
    | register member registration =>
      have hkeeps : (member.registry.take registration).Keeps
          (Statewise fun state after => state.FlagsOwn → after.FlagsOwn) := by
        refine Registry.take_statewise (fun _ h => h) (fun _ _ _ hab hbc h => hbc (hab h))
          ?_ ?_ ?_ ?_ registration
        · intro name definition state after hok _
          obtain ⟨-, -, rfl⟩ := State.define_eq_ok_iff.mp hok
          exact fun _ _ hkept => nomatch hkept
        · intro name shorthand state after hok hstate
          rcases State.addAlias_eq_ok hok with ⟨-, rfl⟩ | ⟨-, rfl⟩ | ⟨-, -, -, -, rfl⟩ <;> exact hstate
        · intro name state after hok _
          obtain ⟨-, rfl⟩ := State.remove_eq_ok_iff.mp hok
          exact fun _ _ hkept => nomatch hkept
        · intro name value state after hok hstate
          obtain ⟨-, rfl⟩ := State.addSingleton_eq_ok_iff.mp hok
          exact hstate
      exact fun other => hkeeps world other.registry.index (hworld other)
    | inquire member depth inquiry =>
      exact hworld.keeping (inquiry.keeping world member depth world (.refl family world))

/-- A merged definition of a name that is defined has the flags of its own definition. -/
theorem mergedDefinition_flags {world after : World} (hflags : world.FlagsOwn family)
    (hundefined : world.AliasesUndefined) {member : family.Member} {name : String} {own merged : Definition}
    (hown : (world.state member.registry.index).definitions.find? name = some own)
    (h : mergedDefinition member.chain name world = (.ok merged, after)) : merged.flags = own.flags := by
  obtain ⟨found, hfound, rfl, -⟩ := Work.takeMerged_eq_ok h
  have hcanonical : world.canonicalIn member.chain name = name :=
    hundefined.canonicalName (Table.contains_of_find? hown)
  obtain ⟨further, hdescent⟩ := ((World.Keeping.refl family world).toRestsOn.mergedIn_descends _
    member.chain_has name found hfound).descent
  rw [hcanonical] at hdescent
  exact (hdescent.flags hflags hown : found.definition.bare.flags = own.flags)

/-! ## Holding an instance -/

/-- Has the instance of a bean that a container defines: the one that is kept, or else a new one, once its
prerequisites exist. -/
def holdInstance (handler : Handler) (depth : Nat) (registry : Registry) (ancestors : Chain)
    (name : String) : Work Value := do
  match (← Work.state registry).singletons.find? name with
  | some shared => pure shared
  | none =>
    let merged ← mergedDefinition (registry :: ancestors) name
    realizePrerequisites handler registry ancestors name merged
    instanceOf handler depth registry ancestors name merged

section

variable {world : World} {member : family.Member} {written name : String} {own : Definition}

/-- **The bean of a name is had by holding its instance and exposing it with the flag of its own
definition**, whether the instance is kept or new. -/
theorem fetchBean_eq_hold (hflags : world.FlagsOwn family) (hundefined : world.AliasesUndefined)
    (hsought : world.sought member.registry written = name)
    (hown : (world.state member.registry.index).definitions.find? name = some own) (handler : Handler)
    (depth : Nat) :
    fetchBean handler depth member.registry member.ancestors written world =
      (holdInstance handler depth member.registry member.ancestors name >>= fun instance_ =>
        exposed member.registry instance_ written name (!own.synthetic)) world := by
  have hdefined := Table.contains_of_find? hown
  unfold fetchBean holdInstance
  unfold World.sought at hsought
  rw [bind_assoc, Work.state_bind_apply, Work.state_bind_apply, hsought]
  dsimp only
  cases hkept : (world.state member.registry.index).singletons.find? name with
  | some shared =>
    have hdefinition : (world.state member.registry.index).definition? name = some own := by
      unfold State.definition?
      rw [hundefined.canonicalName hdefined, hown]
    rw [hdefinition]
    rfl
  | none =>
    rw [if_pos hdefined]
    simp only [bind_assoc]
    rw [Work.bind_apply, Work.bind_apply]
    rcases hmerged : mergedDefinition member.chain name world with ⟨stop | merged, after⟩ <;>
      unfold Family.Member.chain at hmerged <;> rw [hmerged]
    have hsynthetic : merged.synthetic = own.synthetic :=
      congrArg Prod.fst (mergedDefinition_flags hflags hundefined hown hmerged)
    dsimp only
    rw [hsynthetic]

/-- A request for it is served so. -/
theorem Chain.bean_eq_hold (hflags : world.FlagsOwn family) (hundefined : world.AliasesUndefined)
    (hsought : world.sought member.registry written = name)
    (hown : (world.state member.registry.index).definitions.find? name = some own) (depth : Nat) :
    Chain.bean (depth + 1) member.chain written world =
      (holdInstance (serve depth) depth member.registry member.ancestors name >>= fun instance_ =>
        exposed member.registry instance_ written name (!own.synthetic) >>= fun value =>
          Work.note (.served member.registry.index written value) >>= fun _ => pure value) world := by
  show (fetchBean (serve depth) depth member.registry member.ancestors written >>= fun value =>
    Work.note (.served member.registry.index written value) >>= fun _ => pure value) world = _
  rw [Work.bind_apply, fetchBean_eq_hold hflags hundefined hsought hown, ← Work.bind_apply, bind_assoc]

end

/-! ## Products -/

/-- What becomes of a new product under the name of its factory: it passes the post-processor once, unless
the definition of the factory is synthetic. -/
def Registry.finish (registry : Registry) (own : Definition) (name : String) (made : Value) :
    Except Failure Value :=
  if own.synthetic then .ok made
  else
    match registry.postProcessor with
    | none => .ok made
    | some process => process name made

/-- The singleton that holds the product of a factory under a name, if the factory lets it be shared. -/
def State.holderFor (state : State) (maker : Factory Value) (name : String) : Option Value :=
  if maker.singleton then state.singletons.find? name else none

/-- The product of a factory that is kept under a name. -/
def State.productFor (state : State) (maker : Factory Value) (name : String) : Option Value :=
  (state.holderFor maker name).bind fun _ => state.products.find? name

/-- What comes of asking for the product of a factory under the name of a bean with such a definition, and
what is noted of it, newest first. -/
inductive World.ProductOutcome (world : World) (registry : Registry) (own : Definition) (name : String)
    (label : BeanLabel) (maker : Factory Value) : Except Stop Value → List Event → Prop
  /-- The product that is kept is given as it is. -/
  | kept {product : Value} (hkept : (world.state registry.index).productFor maker name = some product) :
      ProductOutcome world registry own name label maker (.ok product)
        [.given registry.index name label product ((world.state registry.index).holderFor maker name)]
  /-- The factory makes none. -/
  | refused {cause : Failure} (hnone : (world.state registry.index).productFor maker name = none)
      (hasked : (world.askFactory label maker).1 = .error cause) :
      ProductOutcome world registry own name label maker
        (.error (.failure (.creation none (some name) .factory (some cause)))) []
  /-- The post-processor refuses the new product. -/
  | rejected {made : Value} {cause : Failure}
      (hnone : (world.state registry.index).productFor maker name = none)
      (hasked : (world.askFactory label maker).1 = .ok made)
      (hfinish : registry.finish own name made = .error cause) :
      ProductOutcome world registry own name label maker
        (.error (.failure (.creation none (some name) .postProcessing (some cause))))
        [.produced label made]
  | finished {made product : Value}
      (hnone : (world.state registry.index).productFor maker name = none)
      (hasked : (world.askFactory label maker).1 = .ok made)
      (hfinish : registry.finish own name made = .ok product) :
      ProductOutcome world registry own name label maker (.ok product)
        [.given registry.index name label product ((world.state registry.index).holderFor maker name),
          .produced label made]

section

variable (registry : Registry) (own : Definition) (name : String) {label : BeanLabel}
  {maker : Factory Value} {world after : World}

/-- If the factory makes no product, there is none to be finished. -/
theorem freshProduct_of_refused {cause : Failure}
    (hasked : world.askFactory label maker = (.error cause, after)) (processed : Bool) :
    freshProduct registry label maker name processed world =
      (.error (.failure (.creation none (some name) .factory (some cause))), after) := by
  unfold freshProduct newProduct
  rw [Work.bind_apply]
  unfold Work.explain
  rw [Work.get_bind_apply, hasked]
  rfl

/-- A product that the factory makes is noted and finished. -/
theorem freshProduct_of_made {made : Value}
    (hasked : world.askFactory label maker = (.ok made, after)) :
    freshProduct registry label maker name (!own.synthetic) world =
      (match registry.finish own name made with
        | .ok product => .ok product
        | .error cause => .error (.failure (.creation none (some name) .postProcessing (some cause))),
        after.noting (.produced label made)) := by
  have hmade : newProduct label maker world = (.ok made, after.noting (.produced label made)) := by
    unfold newProduct
    rw [Work.get_bind_apply, hasked]
    rfl
  unfold freshProduct Registry.finish postProcess
  rw [Work.bind_apply_ok (Work.explain_apply_ok _ hmade)]
  cases own.synthetic with
  | true => rfl
  | false =>
    cases registry.postProcessor with
    | none => rfl
    | some process =>
      show Work.explain _ (Work.ofExcept (process name made)) _ = _
      dsimp only
      cases process name made <;> rfl

/-- If none is kept, a new product is made that is finished as the definition says, or making it fails. -/
theorem freshProduct_outcome (label : BeanLabel)
    (hnone : (world.state registry.index).productFor maker name = none) :
    (∃ stop new after, freshProduct registry label maker name (!own.synthetic) world =
        (.error stop, after) ∧
      world.ProductOutcome registry own name label maker (.error stop) new ∧
      after.journal = new ++ world.journal) ∨
    ∃ product new after, freshProduct registry label maker name (!own.synthetic) world =
        (.ok product, after) ∧
      world.ProductOutcome registry own name label maker (.ok product)
        (.given registry.index name label product ((world.state registry.index).holderFor maker name) ::
          new) ∧
      after.journal = new ++ world.journal := by
  obtain ⟨count, tallies, hafter⟩ := Work.askFactory_eq world label maker
  rcases hasked : world.askFactory label maker with ⟨cause | made, after⟩ <;> rw [hasked] at hafter
  · refine .inl ⟨_, [], after, freshProduct_of_refused registry name hasked _, .refused hnone ?_, ?_⟩
    · rw [hasked]
    · rw [show after = _ from hafter]
      rfl
  · have hmade : (world.askFactory label maker).1 = .ok made := congrArg Prod.fst hasked
    have hrun := freshProduct_of_made registry own name hasked
    have hjournal : (after.noting (.produced label made)).journal =
        [.produced label made] ++ world.journal := by
      rw [show after = _ from hafter]
      rfl
    cases hfinish : registry.finish own name made with
    | error cause =>
      rw [hfinish] at hrun
      exact .inl ⟨_, _, _, hrun, .rejected hnone hmade hfinish, hjournal⟩
    | ok product =>
      rw [hfinish] at hrun
      exact .inr ⟨product, _, _, hrun, .finished hnone hmade hfinish, hjournal⟩

/-- **The product of a factory is the one that is kept, or a new one that is finished as the definition
says.** -/
theorem productOf_outcome (label : BeanLabel) (maker : Factory Value) (world : World) :
    ∃ result new after, productOf registry label maker name (!own.synthetic) world = (result, after) ∧
      world.ProductOutcome registry own name label maker result new ∧
      after.journal = new ++ world.journal := by
  -- the event names the holder, so that both cases of it are noted in the same way
  have hproductOf : productOf registry label maker name (!own.synthetic) world =
      (sharedProduct registry name ((world.state registry.index).holderFor maker name)
          (freshProduct registry label maker name (!own.synthetic)) >>= fun product =>
        Work.note (.given registry.index name label product
          ((world.state registry.index).holderFor maker name)) >>= fun _ => pure product) world :=
    rfl
  rw [hproductOf]
  cases hholder : (world.state registry.index).holderFor maker name with
  | none =>
    have hnone : (world.state registry.index).productFor maker name = none := by
      unfold State.productFor
      rw [hholder]
      rfl
    rw [sharedProduct_none]
    rcases freshProduct_outcome registry own name label hnone with
      ⟨stop, new, after, hrun, houtcome, hjournal⟩ | ⟨product, new, after, hrun, houtcome, hjournal⟩
    · exact ⟨_, new, after, Work.bind_apply_error hrun, houtcome, hjournal⟩
    · rw [Work.bind_apply_ok hrun]
      rw [hholder] at houtcome
      exact ⟨_, _, _, rfl, houtcome, congrArg _ hjournal⟩
  | some holder =>
    have hproducts : (world.state registry.index).productFor maker name =
        (world.state registry.index).products.find? name := by
      unfold State.productFor
      rw [hholder]
      rfl
    cases hkept : (world.state registry.index).products.find? name with
    | some product =>
      rw [Work.bind_apply_ok (sharedProduct_kept _ hkept)]
      refine ⟨_, [.given registry.index name label product (some holder)], _, rfl, ?_, rfl⟩
      rw [← hholder]
      exact .kept (hproducts.trans hkept)
    | none =>
      rcases freshProduct_outcome registry own name label (hproducts.trans hkept) with
        ⟨stop, new, after, hrun, houtcome, hjournal⟩ | ⟨product, new, after, hrun, houtcome, hjournal⟩
      · exact ⟨_, new, after, Work.bind_apply_error (sharedProduct_error hkept hrun), houtcome, hjournal⟩
      · rw [Work.bind_apply_ok (sharedProduct_unkept hkept hrun)]
        rw [hholder] at houtcome
        exact ⟨_, _, _, rfl, houtcome, congrArg _ hjournal⟩

end

/-- **A product is processed by the definition of its factory alone.** Whoever asks for a bean by a name
without a mark gets the instance that is held for it, kept or new; or, if that is a factory, the product that
is kept, as it is, or a new one, which passed the post-processor once unless the definition that is registered
for the bean is synthetic. -/
theorem Chain.bean_processed {start : World} (h : Reachable family start) (member : family.Member)
    {written name : String} {own : Definition} (hplain : asksForFactory written = false)
    (hsought : start.sought member.registry written = name)
    (hown : (start.state member.registry.index).definitions.find? name = some own) (depth : Nat) :
    ∃ result after, Chain.bean (depth + 1) member.chain written start = (result, after) ∧
      ((∃ stop, holdInstance (serve depth) depth member.registry member.ancestors name start =
          (.error stop, after) ∧ result = .error stop) ∨
        ∃ instance_ between,
          holdInstance (serve depth) depth member.registry member.ancestors name start =
            (.ok instance_, between) ∧
          match instance_.factory? with
          | none => result = .ok instance_ ∧
              after = between.noting (.served member.registry.index written instance_)
          | some (label, maker) => ∃ new,
              between.ProductOutcome member.registry own name label maker result new ∧
              after.journal = (result.toOption.map (Event.served member.registry.index written)).toList ++
                new ++ between.journal) := by
  rw [Chain.bean_eq_hold h.flagsOwn h.aliasesUndefined hsought hown]
  rcases hheld : holdInstance (serve depth) depth member.registry member.ancestors name start with
    ⟨stop | instance_, between⟩
  · exact ⟨.error stop, between, Work.bind_apply_error hheld, .inl ⟨stop, rfl, rfl⟩⟩
  rw [Work.bind_apply_ok hheld]
  unfold exposed
  rw [hplain, if_neg Bool.false_ne_true]
  cases hfactory : instance_.factory? with
  | none =>
    refine ⟨.ok instance_, _, rfl, .inr ⟨instance_, between, rfl, ?_⟩⟩
    rw [hfactory]
    exact ⟨rfl, rfl⟩
  | some factory =>
    obtain ⟨label, maker⟩ := factory
    obtain ⟨result, new, after, hrun, houtcome, hjournal⟩ :=
      productOf_outcome member.registry own name label maker between
    dsimp only
    cases result with
    | error stop =>
      refine ⟨_, after, Work.bind_apply_error hrun, .inr ⟨instance_, between, rfl, ?_⟩⟩
      rw [hfactory]
      exact ⟨new, houtcome, hjournal⟩
    | ok product =>
      refine ⟨_, _, Work.bind_apply_ok hrun, .inr ⟨instance_, between, rfl, ?_⟩⟩
      rw [hfactory]
      exact ⟨new, houtcome, congrArg _ hjournal⟩

/-! ### A child of a synthetic definition -/

/-- A container that labels its products, with a class of factories. -/
def labellingRegistry : Registry where
  index := 0
  classes := ClassTable.register {} "F"
    { construct := Plan.constructor (.factory "F" (.production (.always (.text "made"))) none true) [] }
  postProcessor := some PostProcessor.labelling

/-- The definition of `n` has a synthetic one as its parent. The factory is had before its product. -/
def labelledOperations : List (Operation (Family.lone labellingRegistry)) :=
  let member := Registry.lone labellingRegistry
  [.register member (.definition "p" { className := some "F", synthetic := true }),
    .register member (.definition "n" { parent := some "p" }),
    .inquire member 1 (.bean "&n")]

/-- The product of `n` is labelled. -/
theorem bean_processed_child :
    ∃ own product after between label maker new,
      ((World.after labelledOperations).state 0).definitions.find? "n" = some own ∧
      own.synthetic = false ∧
      Chain.bean 1 [labellingRegistry] "n" (World.after labelledOperations) = (.ok product, after) ∧
      World.ProductOutcome between labellingRegistry own "n" label maker (.ok product) new ∧
      product.same (.list [.text "n", .text "made"]) = true := by
  have hgiven : (Chain.bean 1 [labellingRegistry] "n" (World.after labelledOperations)).1.toOption.map
      (fun product => product.same (.list [.text "n", .text "made"])) = some true := by decide +kernel
  have hflag : (((World.after labelledOperations).state 0).definitions.find? "n").map
      (fun own => own.synthetic) = some false := by decide +kernel
  have hfactory : (holdInstance (serve 0) 0 labellingRegistry [] "n"
      (World.after labelledOperations)).1.toOption.map (fun held => held.factory?.isSome) =
        some true := by decide +kernel
  obtain ⟨own, hown, hsynthetic⟩ := Option.map_eq_some_iff.mp hflag
  obtain ⟨result, after, hrun, houtcome⟩ := Chain.bean_processed
    (⟨labelledOperations, rfl⟩ : Reachable (Family.lone labellingRegistry) _)
    (Registry.lone labellingRegistry) (by decide : asksForFactory "n" = false)
    (by decide +kernel : (World.after labelledOperations).sought labellingRegistry "n" = "n") hown 0
  have hresult : (Chain.bean 1 [labellingRegistry] "n" (World.after labelledOperations)).1 = result :=
    congrArg Prod.fst hrun
  rw [hresult] at hgiven
  cases result with
  | error stop => cases hgiven
  | ok product =>
    have hsame : product.same (.list [.text "n", .text "made"]) = true := Option.some.inj hgiven
    rcases houtcome with ⟨stop, -, hstop⟩ | ⟨instance_, between, hheld, houtcome⟩
    · cases hstop
    rw [show holdInstance (serve 0) 0 labellingRegistry [] "n" _ = _ from hheld] at hfactory
    have hmaker : instance_.factory?.isSome = true := Option.some.inj hfactory
    split at houtcome
    · next hnone =>
      rw [hnone] at hmaker
      cases hmaker
    · obtain ⟨new, houtcome, -⟩ := houtcome
      exact ⟨own, product, after, between, _, _, new, hown, hsynthetic, hrun, houtcome, hsame⟩

end Injector
