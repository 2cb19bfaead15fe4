import Injector.Container.World

/-!
# Products of factories

A factory bean stands for its product: whoever asks for it by its plain name is given the product, and
with the mark `factoryMark` before the name the factory itself.

A product is kept under the name of the factory if the factory says that it may be shared and a
singleton of that name exists. It passes the post-processor of the container once, when it is made.
-/

namespace Injector

/-! ## Stock post-processors -/

/-- Gives every product in a list behind the name of its factory. -/
def PostProcessor.labelling : PostProcessor := fun name product =>
  .ok (.list [.text name, product])

/-- Gives null for every product. -/
def PostProcessor.dropping : PostProcessor := fun _ _ => .ok .null

/-- Refuses every product. -/
def PostProcessor.refusing (cause : Failure) : PostProcessor := fun _ _ => .error cause

/-! ## Making products -/

namespace World

/-- A new plain bean. -/
def makePlain (world : World) (typeName : String) : Value × World :=
  (.bean (.plain typeName (.made (world.made + 1))), { world with made := world.made + 1 })

/-- The bean of a blueprint. -/
def makeBean (world : World) : Blueprint → Value × World
  | .null => (.bean .null, world)
  | .plain typeName => world.makePlain typeName
  | .factory typeName maker =>
    (.bean (.factory typeName (.made (world.made + 1)) maker), { world with made := world.made + 1 })

/-- What a factory yields when it is asked. -/
def askFactory (world : World) (label : BeanLabel) (maker : Factory Value) :
    Except Failure Value × World :=
  match maker.production with
  | .always product => (.ok product, world)
  | .fresh className =>
    let (value, after) := world.makePlain className
    (.ok value, after)
  | .failing cause => (.error cause, world)
  | .counting => (.ok (.int (Int64.ofNat (world.tally label))), world.withTally label)
  | .answering answer => (answer (world.tally label), world.withTally label)

end World

/-- Asks a factory for a new product. -/
def newProduct (label : BeanLabel) (maker : Factory Value) : Work Value := do
  let (result, after) := (← get).askFactory label maker
  set after
  let product ← Work.ofExcept result
  Work.note (.produced label product)
  pure product

/-- Lets the post-processor of a container see a product. -/
def postProcess (registry : Registry) (name : String) (product : Value) : Work Value :=
  match registry.postProcessor with
  | none => pure product
  | some process => Work.ofExcept (process name product)

/-- A new product of a factory that goes by a name. The flag lets the post-processor see it. -/
def freshProduct (registry : Registry) (label : BeanLabel) (maker : Factory Value) (name : String)
    (processed : Bool) : Work Value := do
  let made ← Work.explain (fun cause => .creation none (some name) .factory (some cause))
    (newProduct label maker)
  if processed then
    Work.explain (fun cause => .creation none (some name) .postProcessing (some cause))
      (postProcess registry name made)
  else pure made

/-- The product that is kept under a name, or one that is made and kept, if there is a holder for it;
else one that is made. -/
def sharedProduct (registry : Registry) (name : String) (holder : Option Value)
    (make : Work Value) : Work Value := do
  match holder with
  | none => make
  | some _ =>
    match (← Work.state registry).products.find? name with
    | some product => pure product
    | none =>
      let product ← make
      Work.update registry fun state => { state with products := state.products.insertNew name product }
      pure product

/-- The product of a factory that goes by a name: the one that is kept, or else a new one. -/
def productOf (registry : Registry) (label : BeanLabel) (maker : Factory Value) (name : String)
    (processed : Bool) : Work Value := do
  let state ← Work.state registry
  -- a product is kept only where something is kept under the name itself
  let holder := if maker.singleton then state.singletons.find? name else none
  let product ← sharedProduct registry name holder
    (freshProduct registry label maker name processed)
  Work.note (.given registry.index name label product holder)
  pure product

/-- What is given to those who ask for an instance under a name as written: its product if it is a
factory, unless the name asks for the factory itself. -/
def exposed (registry : Registry) (instance_ : Value) (written name : String) (processed : Bool) :
    Work Value :=
  if asksForFactory written then
    if instance_.factory?.isSome || instance_.isNullBean then pure instance_
    else Work.fail (.notOfRequiredType name "FactoryBean" instance_.kind)
  else
    match instance_.factory? with
    | some (label, maker) => productOf registry label maker name processed
    | none => pure instance_

end Injector
