import Injector.Proofs.Requests.Serving

/-!
# Explicit nulls

The explicit-null marker stands for a bean that is null on purpose. Where a raw value refers to a bean or
nests one, null takes the place of the marker. Autowiring is different: the beans that it has for a
dependency are placed as they are, and the marker is not taken out, neither where a single bean is injected
nor in lists and maps of beans.

To tell the two apart, a raw value that is made of references, nested beans, dependencies and null alone
(`Wiring`) is resolved into a `Layout`, which has the beans as they were had, each in its place. Resolution
does nothing else than to lay out the beans and then to fill the places (`Resolution.resolve_eq_lay`). So
the markers in a resolved value are those that autowiring injected (`Resolution.marker_placed_iff`).
-/

namespace Injector

/-! ## Wirings -/

/-- A raw value that is made of references, nested beans, dependencies and null. -/
inductive Wiring
  | reference (reference : Reference)
  | inner (identity : String) (definition : Definition)
  | holder (name : String) (aliases : List String) (definition : Definition)
  | dependency (dependency : Dependency)
  | null
  | array (elementTypeName : Option String) (memo : Option ValueType) (elements : List Wiring)
  | list (elements : List Wiring)
  | set (elements : List Wiring)
  | map (entries : List (Wiring × Wiring))

namespace Wiring

mutual

/-- The wiring as a raw value. -/
def raw : Wiring → RawValue
  | .reference target => .reference target
  | inner identity definition => .inner identity definition
  | holder name aliases definition => .holder name aliases definition
  | .dependency wanted => .dependency wanted
  | null => .null
  | array elementTypeName memo elements => .array elementTypeName memo (rawElements elements)
  | list elements => .list (rawElements elements)
  | set elements => .set (rawElements elements)
  | map entries => .map (rawEntries entries)

/-- The elements of a collection as raw values. -/
def rawElements : List Wiring → List RawValue
  | [] => []
  | element :: rest => element.raw :: rawElements rest

/-- The entries of a map as raw values. -/
def rawEntries : List (Wiring × Wiring) → List (RawValue × RawValue)
  | [] => []
  | (key, value) :: rest => (key.raw, value.raw) :: rawEntries rest

end

end Wiring

/-! ## Layouts -/

/-- The places of a dependency that is injected: that of the whole, and those of the beans in a list or of
the names and beans in a map. -/
def DependencyShape.places : DependencyShape → Value → List Value
  | .list, .list items => .list items :: items
  | .map, .map entries => .map entries :: entries.flatMap fun entry => [entry.1, entry.2]
  | _, value => [value]

/-- What is had for the places of a value. -/
inductive Layout
  /-- A bean that is referred to or nested, as it is had. -/
  | bean (had : Value)
  /-- What autowiring gives for a dependency of the shape. -/
  | injected (shape : DependencyShape) (given : Value)
  | null
  | array (elementType : ValueType) (items : List Layout)
  | list (items : List Layout)
  | set (items : List Layout)
  | map (entries : List (Layout × Layout))

namespace Layout

mutual

/-- The value with all places filled. Null takes the place of a bean that is the explicit-null marker. -/
def value : Layout → Value
  | bean had => had.withoutMarker
  | injected _ given => given
  | null => .null
  | array elementType items => .array elementType (values items)
  | list items => .list (values items)
  | set items => .set (values items)
  | map entries => .map (entryValues entries)

/-- The values of a sequence. -/
def values : List Layout → List Value
  | [] => []
  | item :: rest => item.value :: values rest

/-- The values of the entries of a map. -/
def entryValues : List (Layout × Layout) → List (Value × Value)
  | [] => []
  | (key, item) :: rest => (key.value, item.value) :: entryValues rest

end

mutual

/-- A layout and all that is laid out in it. -/
def parts : Layout → List Layout
  | array elementType items => array elementType items :: partsOf items
  | list items => list items :: partsOf items
  | set items => set items :: partsOf items
  | map entries => map entries :: partsOfEntries entries
  | part => [part]

/-- What is laid out in a sequence. -/
def partsOf : List Layout → List Layout
  | [] => []
  | item :: rest => item.parts ++ partsOf rest

/-- What is laid out in the entries of a map. -/
def partsOfEntries : List (Layout × Layout) → List Layout
  | [] => []
  | (key, item) :: rest => key.parts ++ item.parts ++ partsOfEntries rest

end

/-- The places that a part fills itself, apart from those of what is laid out in it. -/
def filled : Layout → List Value
  | injected shape given => shape.places given
  | part => [part.value]

/-- The values in all places of a value that is resolved. -/
def places (layout : Layout) : List Value :=
  layout.parts.flatMap filled

/-- The values in the places that autowiring filled. -/
def injections (layout : Layout) : List Value :=
  layout.parts.flatMap fun
    | injected shape given => shape.places given
    | _ => []

/-- Adds an element to a set unless there is the same one. -/
def addItem (items : List Layout) (item : Layout) : List Layout :=
  if item.value.isAmong (values items) then items else items ++ [item]

/-- Binds a key of a map, in place if the same one is bound. -/
def addEntry (key item : Layout) : List (Layout × Layout) → List (Layout × Layout)
  | [] => [(key, item)]
  | (other, old) :: rest =>
    if key.value.same other.value then (other, item) :: rest else (other, old) :: addEntry key item rest

/-- The set of the given elements. -/
def setOf (items : List Layout) : Layout :=
  set (items.foldl addItem [])

/-- The map of the given entries. -/
def mapOf (entries : List (Layout × Layout)) : Layout :=
  map (entries.foldl (fun collected entry => addEntry entry.1 entry.2 collected) [])

/-! ### Filling the places of sets and maps -/

theorem values_append (first second : List Layout) :
    values (first ++ second) = values first ++ values second := by
  induction first with
  | nil => rfl
  | cons item rest ih => rw [List.cons_append, values, values, ih, List.cons_append]

theorem values_addItem (items : List Layout) (item : Layout) :
    values (addItem items item) = Value.addItem (values items) item.value := by
  unfold addItem Value.addItem
  split
  · rfl
  · rw [values_append]
    rfl

/-- A set is filled by adding the values of its elements. -/
theorem value_setOf (items : List Layout) : (setOf items).value = .setOf (values items) := by
  have hkept : ∀ kept : List Layout,
      values (items.foldl addItem kept) = (values items).foldl Value.addItem (values kept) := by
    induction items with
    | nil => exact fun kept => rfl
    | cons item rest ih =>
      intro kept
      rw [List.foldl_cons, ih, values_addItem, values, List.foldl_cons]
  exact congrArg Value.set (hkept [])

theorem entryValues_addEntry (key item : Layout) (entries : List (Layout × Layout)) :
    entryValues (addEntry key item entries) =
      Value.addEntry key.value item.value (entryValues entries) := by
  induction entries with
  | nil => rfl
  | cons entry rest ih =>
    obtain ⟨other, old⟩ := entry
    rw [addEntry, entryValues, Value.addEntry]
    split
    · rfl
    · rw [entryValues, ih]

/-- A map is filled by binding the values of its keys. -/
theorem value_mapOf (entries : List (Layout × Layout)) :
    (mapOf entries).value = .mapOf (entryValues entries) := by
  have hkept : ∀ kept : List (Layout × Layout),
      entryValues (entries.foldl (fun collected entry => addEntry entry.1 entry.2 collected) kept) =
        (entryValues entries).foldl (fun collected entry => Value.addEntry entry.1 entry.2 collected)
          (entryValues kept) := by
    induction entries with
    | nil => exact fun kept => rfl
    | cons entry rest ih =>
      intro kept
      obtain ⟨key, item⟩ := entry
      rw [List.foldl_cons, ih, entryValues_addEntry, entryValues, List.foldl_cons]
  exact congrArg Value.map (hkept [])

/-! ### Markers -/

/-- **A marker stands in a place exactly if autowiring put one there.** -/
theorem marker_mem_places_iff (layout : Layout) :
    (∃ place ∈ layout.places, place.isNullBean = true) ↔
      ∃ place ∈ layout.injections, place.isNullBean = true := by
  unfold places injections
  constructor
  · rintro ⟨place, hplace, hmarker⟩
    obtain ⟨part, hpart, hfilled⟩ := List.mem_flatMap.1 hplace
    cases part with
    | injected shape given => exact ⟨place, List.mem_flatMap.2 ⟨_, hpart, hfilled⟩, hmarker⟩
    | bean had =>
      rw [List.mem_singleton.1 hfilled, value, Value.isNullBean_withoutMarker] at hmarker
      cases hmarker
    | null | array | list | set | map =>
      -- null and collections are no beans
      rw [List.mem_singleton.1 hfilled] at hmarker
      cases hmarker
  · rintro ⟨place, hplace, hmarker⟩
    obtain ⟨part, hpart, hfilled⟩ := List.mem_flatMap.1 hplace
    cases part with
    | injected shape given => exact ⟨place, List.mem_flatMap.2 ⟨_, hpart, hfilled⟩, hmarker⟩
    | _ => cases hfilled

end Layout

/-! ## Laying out -/

namespace Resolution

variable (r : Resolution)

/-- The bean that a reference aims at, as it is had. -/
def referredBean (path : ArgumentPath) (reference : Reference) : Work Value :=
  r.blaming (.reference reference.target path.toText)
    (if reference.inParent then r.lookUpInParent reference else r.lookUp reference)

/-- A nested bean, as it is made. -/
def nestedBean (path : ArgumentPath) (name : String) (definition : Definition) : Work Value := do
  let fault := fun className => CreationFault.innerBean name className path.toText
  let merged ← r.blaming (fault definition.className)
    (r.provider.merged name definition r.definition)
  r.blaming (fault (merged.className.or definition.className)) (r.build name merged)

mutual

/-- What is had for the places of a wiring. -/
def lay (path : ArgumentPath) (steps : List Step) : Wiring → Work Layout
  | .reference reference => Layout.bean <$> r.referredBean path reference
  | .inner identity definition => Layout.bean <$> r.nestedBean path (anonymousName identity) definition
  | .holder name _ definition => Layout.bean <$> r.nestedBean path name definition
  | .dependency dependency => Layout.injected dependency.shape <$> r.resolveDependency dependency
  | .null => pure .null
  | .array typeName memo elements => do
    let type ← r.elementType path steps typeName memo
    return .array type (← layElements path steps 0 elements)
  | .list elements => return .list (← layElements path steps 0 elements)
  | .set elements => return .setOf (← layElements path steps 0 elements)
  | .map entries => return .mapOf (← layEntries path steps 0 entries)

/-- What is had for the elements of a collection, from a position on. -/
def layElements (path : ArgumentPath) (steps : List Step) : Nat → List Wiring → Work (List Layout)
  | _, [] => pure []
  | position, element :: rest => do
    let item ← lay (path.atIndex position) (.element position :: steps) element
    return item :: (← layElements path steps (position + 1) rest)

/-- What is had for the keys and values of a map, from a position on. -/
def layEntries (path : ArgumentPath) (steps : List Step) :
    Nat → List (Wiring × Wiring) → Work (List (Layout × Layout))
  | _, [] => pure []
  | position, (key, item) :: rest => do
    let key ← lay path (.key position :: steps) key
    let item ← lay (path.atKey key.value) (.value position :: steps) item
    return (key, item) :: (← layEntries path steps (position + 1) rest)

end

/-- Null takes the place of the marker where a reference is resolved. -/
theorem resolveReference_eq_map (path : ArgumentPath) (reference : Reference) :
    r.resolveReference path reference = Value.withoutMarker <$> r.referredBean path reference := by
  unfold resolveReference referredBean blaming
  rw [← Work.explain_map, map_eq_pure_bind]
  -- both ways to look the bean up end in the same translation
  cases reference.inParent <;> rfl

/-- Null takes the place of the marker where a nested bean is made. -/
theorem resolveNested_eq_map (path : ArgumentPath) (name : String) (definition : Definition) :
    r.resolveNested path name definition = Value.withoutMarker <$> r.nestedBean path name definition := by
  unfold resolveNested nestedBean blaming
  rw [map_bind]
  refine bind_congr fun merged => ?_
  rw [← Work.explain_map, map_eq_pure_bind]

mutual

/-- **Resolving a wiring is laying out what is had for its places, and filling them.** -/
theorem resolve_eq_lay (path : ArgumentPath) (steps : List Step) :
    ∀ wiring : Wiring, r.resolve path steps wiring.raw = Layout.value <$> r.lay path steps wiring
  | .reference target => by
    rw [Wiring.raw, resolve, lay, resolveReference_eq_map, Functor.map_map]
    rfl
  | .inner identity definition => by
    rw [Wiring.raw, resolve, lay, resolveNested_eq_map, Functor.map_map]
    rfl
  | .holder name aliases definition => by
    rw [Wiring.raw, resolve, lay, resolveNested_eq_map, Functor.map_map]
    rfl
  | .dependency wanted => by
    -- what is injected fills its place as it is
    rw [Wiring.raw, resolve, lay, Functor.map_map]
    exact (id_map _).symm
  | .null => by
    rw [Wiring.raw, resolve, lay, map_pure]
    rfl
  | .array typeName memo elements => by
    rw [Wiring.raw, resolve, lay, resolveElements_eq_lay path steps 0 elements]
    simp only [map_eq_pure_bind, bind_assoc, pure_bind, Layout.value]
  | .list elements => by
    rw [Wiring.raw, resolve, lay, resolveElements_eq_lay path steps 0 elements]
    simp only [map_eq_pure_bind, bind_assoc, pure_bind, Layout.value]
  | .set elements => by
    rw [Wiring.raw, resolve, lay, resolveElements_eq_lay path steps 0 elements]
    simp only [map_eq_pure_bind, bind_assoc, pure_bind, Layout.value_setOf]
  | .map entries => by
    rw [Wiring.raw, resolve, lay, resolveEntries_eq_lay path steps 0 entries]
    simp only [map_eq_pure_bind, bind_assoc, pure_bind, Layout.value_mapOf]

theorem resolveElements_eq_lay (path : ArgumentPath) (steps : List Step) :
    ∀ (position : Nat) (elements : List Wiring),
      r.resolveElements path steps position (Wiring.rawElements elements) =
        Layout.values <$> r.layElements path steps position elements
  | _, [] => by
    rw [Wiring.rawElements, resolveElements, layElements, map_pure]
    rfl
  | position, element :: rest => by
    rw [Wiring.rawElements, resolveElements, layElements, resolve_eq_lay _ _ element,
      resolveElements_eq_lay path steps (position + 1) rest]
    simp only [map_eq_pure_bind, bind_assoc, pure_bind, Layout.values]

theorem resolveEntries_eq_lay (path : ArgumentPath) (steps : List Step) :
    ∀ (position : Nat) (entries : List (Wiring × Wiring)),
      r.resolveEntries path steps position (Wiring.rawEntries entries) =
        Layout.entryValues <$> r.layEntries path steps position entries
  | _, [] => by
    rw [Wiring.rawEntries, resolveEntries, layEntries, map_pure]
    rfl
  | position, (key, item) :: rest => by
    rw [Wiring.rawEntries, resolveEntries, layEntries, resolve_eq_lay _ _ key,
      resolveEntries_eq_lay path steps (position + 1) rest]
    simp only [map_eq_pure_bind, bind_assoc, pure_bind, Layout.entryValues, resolve_eq_lay _ _ item]

end

/-- **The markers in a resolved value are those that autowiring injected.** Whenever a wiring is resolved,
the value is that of what was had for its places, with null for every reference and nested bean that turned
out to be the explicit-null marker. So a place has the marker in it exactly if autowiring put it there. -/
theorem marker_placed_iff (wiring : Wiring) {path : ArgumentPath} {steps : List Step}
    {world after : World} {value : Value}
    (h : r.resolve path steps wiring.raw world = (.ok value, after)) :
    ∃ layout : Layout, r.lay path steps wiring world = (.ok layout, after) ∧ layout.value = value ∧
      ((∃ place ∈ layout.places, place.isNullBean = true) ↔
        ∃ place ∈ layout.injections, place.isNullBean = true) := by
  rw [resolve_eq_lay] at h
  obtain ⟨layout, hlay, rfl⟩ := Work.map_eq_ok h
  exact ⟨layout, hlay, rfl, layout.marker_mem_places_iff⟩

end Resolution

/-! ### A bean that is null on purpose -/

/-- A container with a class that makes the explicit-null marker, and one of plain beans. -/
def voidRegistry : Registry where
  index := 0
  classes := ClassTable.register
    (ClassTable.register {} "Void" { construct := Plan.constructor .null [] })
    "Plain" { construct := Plan.constructor (.plain "Plain") [] }

/-- The container with a bean of either class. -/
def voidWorld : World :=
  let withVoid := (voidRegistry.define "void" { className := some "Void" } {}).2
  (voidRegistry.define "plain" { className := some "Plain" } withVoid).2

/-- Resolving the values of another bean. -/
def voidResolution : Resolution :=
  voidRegistry.resolution [] (serve 2) 0 "user" .nothing {}

/-- A reference to the null bean, a nested bean of its class, null, and a plain bean that is injected. -/
def voidWiring : Wiring :=
  .list [.reference { name := some "void" }, .inner "1" { className := some "Void" }, .null,
    .dependency { type := .bean "Plain" }]

/-- Three elements are null, and nowhere is a marker. -/
theorem marker_placed_iff_void :
    ∃ layout : Layout, (voidResolution.lay (.property "all") [] voidWiring voidWorld).1 = .ok layout ∧
      layout.value.list?.map (List.map Value.isNull) = some [true, true, true, false] ∧
      ¬ ∃ place ∈ layout.places, place.isNullBean = true := by
  rcases hrun : voidResolution.resolve (.property "all") [] voidWiring.raw voidWorld with
    ⟨outcome, after⟩
  have hnulls : (outcome.toOption.bind Value.list?).map (List.map Value.isNull) =
      some [true, true, true, false] := by
    rw [show outcome = _ from (congrArg Prod.fst hrun).symm]
    decide +kernel
  have hplain : (voidResolution.lay (.property "all") [] voidWiring voidWorld).1.toOption.any
      (fun layout => layout.injections.all fun place => !place.isNullBean) = true := by
    decide +kernel
  cases outcome with
  | error stop => cases hnulls
  | ok value =>
    obtain ⟨layout, hlay, rfl, hmarker⟩ := voidResolution.marker_placed_iff voidWiring hrun
    rw [hlay] at hplain
    refine ⟨layout, congrArg Prod.fst hlay, hnulls, fun hplaced => ?_⟩
    obtain ⟨place, hplace, hnull⟩ := hmarker.1 hplaced
    have hnot := List.all_eq_true.1 hplain place hplace
    rw [hnull] at hnot
    cases hnot

/-- **The marker is not translated where it is injected**, alone or in a list. -/
theorem not_translated_injected :
    (voidResolution.resolve (.property "one") []
        (Wiring.dependency { type := .bean "Void" }).raw voidWorld).1.toOption.any
          Value.isNullBean = true ∧
      ((voidResolution.resolve (.property "all") []
        (Wiring.dependency { type := .bean "Void", shape := .list }).raw voidWorld).1.toOption.bind
          Value.list?).any (fun items => items.any Value.isNullBean) = true := by
  decide +kernel

end Injector
