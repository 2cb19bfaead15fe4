import Injector.Value.Basic

/-!
# Definitions and raw values

A `Definition` says how a bean is to be built: its class, its scope, the beans that have to exist
first, and the raw values of its constructor arguments and properties. A `RawValue` says what a value
is to be taken from: another bean, a nested definition, a text to evaluate, a collection of these.

## What resolution learns

Two kinds of raw value keep what resolving them has shown. A typed text keeps the type that its
target name stood for, and whether evaluating it gave something other than the text itself; an array
keeps its element type. What is kept first stays (`TypedText.learn`, `RawValue.learn`).

These notes are part of the raw value, so copying a definition copies the notes made so far. To make
one, resolution says where in a definition it stands: a list of `Step`s, outermost first.
-/

namespace Injector

/-! ## Parts of raw values -/

/-- How long a bean lives. -/
inductive Scope
  /-- One shared instance. -/
  | singleton
  /-- A new instance for every request. -/
  | prototype
  deriving DecidableEq, Inhabited

/-- A reference to another bean, by name, by type, or by both. -/
structure Reference where
  name : Option String := none
  type : Option ValueType := none
  /-- Whether the bean is looked up in the parent container instead. -/
  inParent : Bool := false
  deriving DecidableEq

/-- What a reference aims at, as messages quote it. -/
def Reference.target (reference : Reference) : String :=
  match reference.name, reference.type with
  | some name, _ => name
  | none, some type => type.name
  | none, none => ""

/-- Whether one bean is wanted, or all that match. -/
inductive DependencyShape
  | single
  | list
  | map
  deriving DecidableEq

/-- A request for the beans of a type, which the container picks. -/
structure Dependency where
  type : ValueType
  shape : DependencyShape := .single
  /-- Whether it is a failure if there is none. -/
  required : Bool := true
  /-- The name that the bean has to have. -/
  qualifier : Option String := none
  /-- The name of the place that the bean is for; it decides between several. -/
  name : Option String := none
  deriving DecidableEq

/-- What a typed text is converted to. -/
inductive Target
  | type (type : ValueType)
  /-- A type that is looked up by name when it is first needed. -/
  | named (name : String)
  deriving DecidableEq

/-- What resolving a raw value has shown. -/
inductive Lesson
  /-- The type that its type name stands for. -/
  | type (type : ValueType)
  /-- Its text evaluates to something else. -/
  | dynamic

/-- A text, or null, with the type it is converted to after evaluation. -/
structure TypedText where
  text : Option String
  target : Option Target := none
  /-- The type that the target name was found to stand for. -/
  memo : Option ValueType := none
  dynamic : Bool := false
  deriving DecidableEq

namespace TypedText

/-- The type to convert to, as far as it is known without looking up a name. -/
def knownTarget? (typed : TypedText) : Option ValueType :=
  match typed.target with
  | some (.type type) => some type
  | some (.named _) => typed.memo
  | none => none

/-- Keeps what was learnt; a type that is kept already stays. -/
def learn (typed : TypedText) : Lesson → TypedText
  | .type type => { typed with memo := typed.memo.or (some type) }
  | .dynamic => { typed with dynamic := true }

end TypedText

/-- A key or a value of a properties table. -/
inductive PropertyText
  | plain (text : String)
  | typed (typed : TypedText)

/-- Keeps what was learnt about a typed text. -/
def PropertyText.learn (lesson : Lesson) : PropertyText → PropertyText
  | plain text => plain text
  | typed typedText => typed (typedText.learn lesson)

/-! ## Definitions and raw values -/

/-- How a bean is to be built. The parameter is the type of raw values. -/
structure DefinitionOf (ρ : Type) where
  className : Option String := none
  /-- The definition that this one completes. -/
  parent : Option String := none
  declaredScope : Option Scope := none
  /-- The beans that have to exist first. -/
  dependsOn : List String := []
  /-- Whether products of the bean are left as they are. -/
  synthetic : Bool := false
  /-- Whether the bean is preferred among several of its type. -/
  primary : Bool := false
  /-- Whether the bean is left out when singletons are made in advance. -/
  lazy : Bool := false
  /-- Where the definition comes from, for messages. -/
  resource : Option String := none
  arguments : List ρ := []
  properties : List (String × ρ) := []
  deriving Inhabited

/-- What a value is to be taken from. -/
inductive RawValue
  | reference (reference : Reference)
  /-- The name of a bean that has to exist; the name itself is the value. -/
  | nameReference (name : String)
  /-- A nested bean without a name. The identity tells nested definitions apart. -/
  | inner (identity : String) (definition : DefinitionOf RawValue)
  /-- A nested bean with a name. -/
  | holder (name : String) (aliases : List String) (definition : DefinitionOf RawValue)
  | dependency (dependency : Dependency)
  | array (elementTypeName : Option String) (memo : Option ValueType) (elements : List RawValue)
  | list (elements : List RawValue)
  | set (elements : List RawValue)
  | map (entries : List (RawValue × RawValue))
  | properties (entries : List (PropertyText × PropertyText))
  | typed (typed : TypedText)
  | null
  /-- A value as it is, but for texts, which are evaluated. -/
  | literal (value : Value)
  deriving Inhabited

/-- How a bean is to be built. -/
abbrev Definition := DefinitionOf RawValue

namespace DefinitionOf

variable {ρ : Type}

/-- The scope of the bean, singleton unless declared otherwise. -/
def scope (definition : DefinitionOf ρ) : Scope :=
  definition.declaredScope.getD .singleton

/-- Whether there is one shared instance. -/
def isSingleton (definition : DefinitionOf ρ) : Bool :=
  definition.scope == .singleton

/-- Whether every request gets a new instance. -/
def isPrototype (definition : DefinitionOf ρ) : Bool :=
  definition.scope == .prototype

/-- Sets a property, in place if it is set already. -/
def withProperty (definition : DefinitionOf ρ) (name : String) (value : ρ) : DefinitionOf ρ :=
  { definition with properties := Bindings.put name value definition.properties }

/-- The raw value of a property. -/
def property? (definition : DefinitionOf ρ) (name : String) : Option ρ :=
  definition.properties.lookup name

/-- Adds an argument behind those that are there. -/
def withArgument (definition : DefinitionOf ρ) (value : ρ) : DefinitionOf ρ :=
  { definition with arguments := definition.arguments ++ [value] }

/-- Adds a bean that has to exist first. -/
def withPrerequisite (definition : DefinitionOf ρ) (name : String) : DefinitionOf ρ :=
  { definition with dependsOn := definition.dependsOn ++ [name] }

/-- Every property is set once: what setting properties one by one gives. -/
def WellFormed (definition : DefinitionOf ρ) : Prop :=
  (Bindings.keys definition.properties).Nodup

instance (definition : DefinitionOf ρ) : Decidable definition.WellFormed :=
  inferInstanceAs (Decidable (Bindings.keys definition.properties).Nodup)

theorem WellFormed.withProperty {definition : DefinitionOf ρ} (h : definition.WellFormed)
    (name : String) (value : ρ) : (definition.withProperty name value).WellFormed :=
  Bindings.nodup_keys_put h

end DefinitionOf

/-! ## Notes at a place -/

/-- One step from a definition or a raw value to a part of it. -/
inductive Step
  | argument (index : Nat)
  | property (name : String)
  | element (position : Nat)
  | key (position : Nat)
  | value (position : Nat)
  deriving DecidableEq

namespace RawValue

/-- Keeps what was learnt about the part of a raw value that the steps lead to. -/
def learn (lesson : Lesson) : List Step → RawValue → RawValue
  | [], typed typedText => typed (typedText.learn lesson)
  | [], array elementTypeName memo elements =>
    match lesson with
    | .type type => array elementTypeName (memo.or (some type)) elements
    | .dynamic => array elementTypeName memo elements
  | .element position :: steps, array elementTypeName memo elements =>
    array elementTypeName memo (elements.modify position (learn lesson steps))
  | .element position :: steps, list elements =>
    list (elements.modify position (learn lesson steps))
  | .element position :: steps, set elements =>
    set (elements.modify position (learn lesson steps))
  | .key position :: steps, map entries =>
    map (entries.modify position fun entry => (learn lesson steps entry.1, entry.2))
  | .value position :: steps, map entries =>
    map (entries.modify position fun entry => (entry.1, learn lesson steps entry.2))
  | [.key position], properties entries =>
    properties (entries.modify position fun entry => (entry.1.learn lesson, entry.2))
  | [.value position], properties entries =>
    properties (entries.modify position fun entry => (entry.1, entry.2.learn lesson))
  | _, raw => raw

end RawValue

/-- Keeps what was learnt about the part of a definition that the steps lead to. -/
def DefinitionOf.learn (lesson : Lesson) : List Step → Definition → Definition
  | .argument index :: steps, definition =>
    { definition with
      arguments := definition.arguments.modify index (RawValue.learn lesson steps) }
  | .property name :: steps, definition =>
    { definition with
      properties := Bindings.adjust name (RawValue.learn lesson steps) definition.properties }
  | _, definition => definition

end Injector
