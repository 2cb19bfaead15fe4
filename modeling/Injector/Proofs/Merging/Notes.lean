import Injector.Definition.Merge

/-!
# Definitions without the notes made on them

Resolving a bean's raw values leaves notes on its merged definition. `RawValue.bare` and
`DefinitionOf.bare` take the notes off. What is learnt is gone without them (`RawValue.bare_learn`,
`DefinitionOf.bare_learn`), and it makes no difference whether they are taken off before completing a
definition by its parent or afterwards (`DefinitionOf.bare_overlay`).
-/

namespace Injector

/-! ## Lists and bindings -/

/-- Changing an element in a way that cannot be seen afterwards. -/
theorem map_modify {α β : Type} {f : α → β} {change : α → α} (h : ∀ value, f (change value) = f value) :
    ∀ (values : List α) (index : Nat), (values.modify index change).map f = values.map f
  | [], _ => by rw [List.modify_nil]
  | value :: rest, 0 => by rw [List.modify_zero_cons, List.map_cons, List.map_cons, h]
  | value :: rest, index + 1 => by
    rw [List.modify_succ_cons, List.map_cons, List.map_cons, map_modify h rest index]

namespace Bindings

variable {α β : Type}

theorem map_put (f : α → β) (name : String) (value : α) :
    ∀ bindings : List (String × α),
      (put name value bindings).map (Prod.map id f) = put name (f value) (bindings.map (Prod.map id f))
  | [] => rfl
  | (key, old) :: rest => by
    rw [put, List.map_cons, Prod.map_apply, id, put]
    split
    · rfl
    · rw [List.map_cons, map_put f name value rest]
      rfl

/-- Changing what is bound to a name in a way that cannot be seen afterwards. -/
theorem map_adjust {f : α → β} {change : α → α} (h : ∀ value, f (change value) = f value)
    (name : String) :
    ∀ bindings : List (String × α),
      (adjust name change bindings).map (Prod.map id f) = bindings.map (Prod.map id f)
  | [] => rfl
  | (key, old) :: rest => by
    rw [adjust]
    split
    · rw [List.map_cons, List.map_cons, Prod.map_apply, Prod.map_apply, h]
    · rw [List.map_cons, List.map_cons, map_adjust h name rest]

end Bindings

/-! ## Raw values -/

/-- The text without what was learnt about it. -/
def TypedText.bare (typed : TypedText) : TypedText :=
  { typed with memo := none, dynamic := false }

theorem TypedText.bare_learn (typed : TypedText) (lesson : Lesson) :
    (typed.learn lesson).bare = typed.bare := by
  cases lesson with
  | type type => rfl
  | dynamic => rfl

/-- The key or value without what was learnt about it. -/
def PropertyText.bare : PropertyText → PropertyText
  | plain text => plain text
  | typed typedText => typed typedText.bare

theorem PropertyText.bare_learn (lesson : Lesson) (text : PropertyText) :
    (text.learn lesson).bare = text.bare := by
  cases text with
  | plain text => rfl
  | typed typedText => exact congrArg PropertyText.typed (typedText.bare_learn lesson)

namespace RawValue

mutual

/-- The raw value without what was learnt about it. Nothing is learnt about nested definitions. -/
def bare : RawValue → RawValue
  | array elementTypeName _ elements => array elementTypeName none (bareElements elements)
  | list elements => list (bareElements elements)
  | set elements => set (bareElements elements)
  | map entries => map (bareEntries entries)
  | properties entries => properties (entries.map (Prod.map PropertyText.bare PropertyText.bare))
  | typed typedText => typed typedText.bare
  | reference target => .reference target
  | nameReference name => .nameReference name
  | inner identity definition => .inner identity definition
  | holder name aliases definition => .holder name aliases definition
  | dependency wanted => .dependency wanted
  | null => .null
  | literal value => .literal value

/-- The raw values of a sequence without what was learnt about them. -/
def bareElements : List RawValue → List RawValue
  | [] => []
  | element :: rest => element.bare :: bareElements rest

/-- The raw values of a map without what was learnt about them. -/
def bareEntries : List (RawValue × RawValue) → List (RawValue × RawValue)
  | [] => []
  | (key, value) :: rest => (key.bare, value.bare) :: bareEntries rest

end

theorem bareElements_eq_map : ∀ elements : List RawValue, bareElements elements = elements.map bare
  | [] => rfl
  | element :: rest => by rw [bareElements, bareElements_eq_map rest, List.map_cons]

theorem bareEntries_eq_map :
    ∀ entries : List (RawValue × RawValue), bareEntries entries = entries.map (Prod.map bare bare)
  | [] => rfl
  | (key, value) :: rest => by rw [bareEntries, bareEntries_eq_map rest, List.map_cons, Prod.map_apply]

/-- Changing an element of a sequence in a way that cannot be seen without notes. -/
theorem bareElements_modify {change : RawValue → RawValue} (h : ∀ raw, (change raw).bare = raw.bare)
    (elements : List RawValue) (position : Nat) :
    bareElements (elements.modify position change) = bareElements elements := by
  rw [bareElements_eq_map, bareElements_eq_map, map_modify h]

/-- Changing an entry of a map in a way that cannot be seen without notes. -/
theorem bareEntries_modify {change : RawValue × RawValue → RawValue × RawValue}
    (h : ∀ entry, Prod.map bare bare (change entry) = Prod.map bare bare entry)
    (entries : List (RawValue × RawValue)) (position : Nat) :
    bareEntries (entries.modify position change) = bareEntries entries := by
  rw [bareEntries_eq_map, bareEntries_eq_map, map_modify h]

/-- **What is learnt is gone without the notes.** -/
theorem bare_learn (lesson : Lesson) :
    ∀ (steps : List Step) (raw : RawValue), (raw.learn lesson steps).bare = raw.bare := by
  intro steps
  induction steps with
  | nil =>
    intro raw
    cases raw with
    | typed typedText => exact congrArg typed (typedText.bare_learn lesson)
    | array elementTypeName memo elements =>
      cases lesson with
      | type type => rfl
      | dynamic => rfl
    | _ => rfl
  | cons step steps ih =>
    intro raw
    cases step with
    | argument index => cases raw <;> rfl
    | property name => cases raw <;> rfl
    | element position =>
      cases raw with
      | array elementTypeName memo elements =>
        exact congrArg (array elementTypeName none) (bareElements_modify ih elements position)
      | list elements => exact congrArg list (bareElements_modify ih elements position)
      | set elements => exact congrArg set (bareElements_modify ih elements position)
      | _ => rfl
    | key position =>
      cases raw with
      | map entries =>
        refine congrArg map (bareEntries_modify (fun entry => ?_) entries position)
        exact Prod.ext (ih entry.1) rfl
      | properties entries =>
        cases steps with
        | nil =>
          refine congrArg properties (map_modify (fun entry => ?_) entries position)
          exact Prod.ext (entry.1.bare_learn lesson) rfl
        | cons next steps => rfl
      | _ => rfl
    | value position =>
      cases raw with
      | map entries =>
        refine congrArg map (bareEntries_modify (fun entry => ?_) entries position)
        exact Prod.ext rfl (ih entry.2)
      | properties entries =>
        cases steps with
        | nil =>
          refine congrArg properties (map_modify (fun entry => ?_) entries position)
          exact Prod.ext rfl (entry.2.bare_learn lesson)
        | cons next steps => rfl
      | _ => rfl

end RawValue

/-! ## Definitions -/

namespace DefinitionOf

/-- The definition without what was learnt about its raw values. -/
def bare (definition : Definition) : Definition :=
  { definition with
    arguments := definition.arguments.map RawValue.bare
    properties := definition.properties.map (Prod.map id RawValue.bare) }

theorem bare_learn (lesson : Lesson) (steps : List Step) (definition : Definition) :
    (definition.learn lesson steps).bare = definition.bare := by
  cases steps with
  | nil => rfl
  | cons step steps =>
    cases step with
    | argument index =>
      unfold learn bare
      dsimp only
      rw [map_modify (RawValue.bare_learn lesson steps)]
    | property name =>
      unfold learn bare
      dsimp only
      rw [Bindings.map_adjust (RawValue.bare_learn lesson steps)]
    | element position => rfl
    | key position => rfl
    | value position => rfl

/-- Setting properties one after the other, with notes or without. -/
theorem map_foldl_put (properties added : List (String × RawValue)) :
    (added.foldl (fun properties property => Bindings.put property.1 property.2 properties)
        properties).map (Prod.map id RawValue.bare) =
      (added.map (Prod.map id RawValue.bare)).foldl
        (fun properties property => Bindings.put property.1 property.2 properties)
        (properties.map (Prod.map id RawValue.bare)) := by
  induction added generalizing properties with
  | nil => rfl
  | cons property rest ih =>
    rw [List.foldl_cons, ih, Bindings.map_put]
    rfl

/-- **A definition is completed in the same way without notes.** -/
theorem bare_overlay (parent child : Definition) :
    (parent.overlay child).bare = parent.bare.overlay child.bare := by
  unfold overlay bare
  dsimp only
  rw [map_foldl_put, List.isEmpty_map]
  split
  · rfl
  · rfl

/-- A nested definition takes its scope in the same way without notes. -/
theorem bare_within (definition : Definition) (containing : Option Definition) :
    (definition.within containing).bare = definition.bare.within containing := by
  cases containing with
  | none => rfl
  | some outer =>
    unfold within
    dsimp only
    rw [show definition.bare.isSingleton = definition.isSingleton from rfl]
    split <;> rfl

end DefinitionOf

end Injector
