import Injector.Number.Reading

/-!
# Failures

A `Failure` says why a value could not be resolved or a bean not be had. It is made of causes, not
of wordings: the wording of each is fixed once, in `message`.

Two kinds of failure carry a reason of their own type: a definition that cannot be taken
(`DefinitionFault`) and a bean that cannot be created (`CreationFault`). Only the latter wraps a
further failure, its cause; `causes` lists the chain and `rootCause` is its end.

Constructors, factories and post-processors of an application fail with texts of their own. These
are the reasons called `stated`.
-/

namespace Injector

/-! ## Reasons -/

/-- Why a value does not convert to a type. -/
inductive MismatchFault
  | notBoolean
  | integer (fault : Number.IntegerFault)
  | float (fault : Number.FloatFault)
  | notOneCharacter
  | noConversion (kind : String)
  | stated (text : String)
  deriving DecidableEq

/-- Why a text with placeholders has no value. -/
inductive EvaluationFault
  | circular (placeholder : String)
  | unresolvable (placeholder : String)
  | stated (text : String)
  deriving DecidableEq

/-- Why a bean cannot be created. A `position` is the text of an argument path. -/
inductive CreationFault
  | reference (target position : String)
  | noParent (target : String)
  | innerBean (name : String) (className : Option String) (position : String)
  | elementType (position : String)
  | evaluation (position : String)
  | conversion (position : String)
  | propertiesEntry (position : String)
  | propertiesNull (position : String)
  | circularDependsOn (name prerequisite : String)
  | missingPrerequisite (name prerequisite : String)
  | noClass
  | unknownClass (className : String)
  | construction
  | requiredProperty (name : String)
  | factory
  | postProcessing
  | stated (text : String)
  deriving DecidableEq

mutual

/-- Why something asked of a container cannot be had. -/
inductive Failure
  | noSuchBean (name : String)
  | noSuchBeanOfType (typeName : String)
  | noUniqueBean (typeName : String) (candidates : List String)
  | notOfRequiredType (name requiredType actualType : String)
  | invalidDefinition (resource name : Option String) (fault : DefinitionFault)
  | creation (resource name : Option String) (fault : CreationFault) (cause : Option Failure)
  | currentlyInCreation (name : String)
  | typeMismatch (value requiredType : String) (fault : MismatchFault)
  | typeNotFound (typeName : String)
  | evaluation (expression : String) (fault : EvaluationFault)

/-- Why a definition or a registration cannot be taken. -/
inductive DefinitionFault
  | emptyName
  | nameTaken (name : String)
  | objectBound (name : String)
  | aliasIsDefinition (shorthand name : String)
  | aliasCircular (shorthand name : String)
  | aliasBound (shorthand name existing : String)
  | unknownName (name position : String)
  | circularParent (name : String)
  | unresolvedParent (parent : String) (cause : Failure)
  | stated (text : String)

end

instance : Inhabited Failure := ⟨.noSuchBean ""⟩

/-! ## Wordings -/

/-- The wording of a reason. -/
def MismatchFault.message : MismatchFault → String
  | notBoolean => "not a boolean literal"
  | integer fault => fault.message
  | float fault => fault.message
  | notOneCharacter => "expected exactly one character"
  | noConversion kind => s!"no conversion from {kind}"
  | stated text => text

/-- The wording of a reason. -/
def EvaluationFault.message : EvaluationFault → String
  | circular placeholder => s!"Circular placeholder reference '{placeholder}'"
  | unresolvable placeholder => s!"Could not resolve placeholder '{placeholder}'"
  | stated text => text

/-- The wording of a reason. -/
def CreationFault.message : CreationFault → String
  | reference target position =>
    s!"Cannot resolve reference to bean '{target}' while setting {position}"
  | noParent target =>
    s!"Cannot resolve reference to bean <{target}> in parent factory: no parent factory available"
  | innerBean name className position =>
    let ofType :=
      match className with
      | some className => s!"of type [{className}] "
      | none => ""
    s!"Cannot create inner bean '{name}' {ofType}while setting {position}"
  | elementType position => s!"Error resolving array type for {position}"
  | evaluation position => s!"Error evaluating typed String value for {position}"
  | conversion position => s!"Error converting typed String value for {position}"
  | propertiesEntry position => s!"Error converting Properties key/value pair for {position}"
  | propertiesNull position =>
    s!"Error converting Properties key/value pair for {position}: resolved to null"
  | circularDependsOn name prerequisite =>
    s!"Circular depends-on relationship between '{name}' and '{prerequisite}'"
  | missingPrerequisite name prerequisite => s!"'{name}' depends on missing bean '{prerequisite}'"
  | noClass => "No bean class specified on bean definition"
  | unknownClass className => s!"Bean class [{className}] not found"
  | construction => "Instantiation of bean failed"
  | requiredProperty name => s!"Required property '{name}' is not set"
  | factory => "FactoryBean threw exception on object creation"
  | postProcessing => "Post-processing of FactoryBean's object failed"
  | stated text => text

/-- How a message mentions the bean that it is about. -/
def aboutBean : Option String → String
  | some name => s!" with name '{name}'"
  | none => ""

/-- How a message mentions where a definition came from. -/
def aboutResource : Option String → String
  | some resource => s!" defined in {resource}"
  | none => ""

mutual

/-- The wording of a failure. -/
def Failure.message : Failure → String
  | .noSuchBean name => s!"No bean named '{name}' available"
  | .noSuchBeanOfType typeName => s!"No qualifying bean of type '{typeName}' available"
  | .noUniqueBean typeName candidates =>
    let count := Number.integerText candidates.length
    let names := String.intercalate "," candidates
    s!"No unique bean of type '{typeName}': expected single matching bean but found {count}: {names}"
  | .notOfRequiredType name requiredType actualType =>
    s!"Bean named '{name}' is expected to be of type '{requiredType}' " ++
      s!"but was actually of type '{actualType}'"
  | .invalidDefinition resource name fault =>
    "Invalid bean definition" ++ aboutBean name ++ aboutResource resource ++ ": " ++ fault.message
  | .creation resource name fault _ =>
    "Error creating bean" ++ aboutBean name ++ aboutResource resource ++ ": " ++ fault.message
  | .currentlyInCreation name =>
    s!"Error creating bean with name '{name}': Requested bean is currently in creation: " ++
      "Is there an unresolvable circular reference?"
  | .typeMismatch value requiredType fault =>
    s!"Failed to convert value '{value}' to required type '{requiredType}': " ++ fault.message
  | .typeNotFound typeName => s!"Cannot resolve type '{typeName}'"
  | .evaluation expression fault => s!"Failed to evaluate '{expression}': " ++ fault.message

/-- The wording of a reason. -/
def DefinitionFault.message : DefinitionFault → String
  | .emptyName => "Bean name must not be empty"
  | .nameTaken name =>
    s!"Cannot register bean definition for bean '{name}': there is already a definition bound"
  | .objectBound name =>
    s!"Could not register object under bean name '{name}': there is already an object bound"
  | .aliasIsDefinition shorthand name =>
    s!"Cannot register alias '{shorthand}' for name '{name}': a bean definition uses that name"
  | .aliasCircular shorthand name =>
    s!"Cannot register alias '{shorthand}' for name '{name}': circular reference"
  | .aliasBound shorthand name existing =>
    s!"Cannot register alias '{shorthand}' for name '{name}': " ++
      s!"it is already registered for name '{existing}'"
  | .unknownName name position => s!"Invalid bean name '{name}' in bean reference for {position}"
  | .circularParent name =>
    s!"Circular parent relationship involving bean definition '{name}'"
  | .unresolvedParent parent cause =>
    s!"Could not resolve parent bean definition '{parent}': " ++ cause.message
  | .stated text => text

end

/-! ## Causes -/

namespace Failure

/-- The failures wrapped in this one, outermost first. -/
def causes : Failure → List Failure
  | .creation _ _ _ (some cause) => cause :: cause.causes
  | _ => []

/-- The innermost wrapped failure, or the failure itself. -/
def rootCause : Failure → Failure
  | .creation _ _ _ (some cause) => cause.rootCause
  | failure => failure

/-- Whether this says that a bean could not be created. -/
def isCreation : Failure → Bool
  | .creation .. => true
  | _ => false

/-- Whether this says that a definition could not be taken. -/
def isInvalidDefinition : Failure → Bool
  | .invalidDefinition .. => true
  | _ => false

/-- The wording of the reason alone, without the bean it is about. -/
def reasonMessage? : Failure → Option String
  | .invalidDefinition _ _ fault => some fault.message
  | .creation _ _ fault _ => some fault.message
  | _ => none

end Failure

/-! ## Stops -/

/-- Why a computation ended without a result: it failed, or it was nested deeper than allowed.
Depth is a limit of the evaluation, not of what is evaluated, so nothing ever recovers from it. -/
inductive Stop
  | failure (cause : Failure)
  | tooDeep

end Injector
