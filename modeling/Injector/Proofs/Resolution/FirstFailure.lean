import Injector.Proofs.Resolution.Collections

/-!
# The first failure

Resolving a raw value comes down to errands: finding the element types of its arrays and resolving its
leaves. They are done in the order in which they stand (`RawValue.errands`), each at a path that tells
where in the raw value it is, and **resolving fails exactly if one of them does after those before it were
done**; what comes of it is then what comes of that errand (`Resolution.resolve_fails_at_first`).

* `Resolution.Reaches` says which errand is come to, at which path and in which world.
* `Resolution.Performs` does errands in turn, and success means that all were done
  (`Resolution.performs_of_resolve_eq_ok`).
-/

namespace Injector

/-! ## Paths and errands -/

/-- The path that goes on with some positions, the outermost first. -/
def ArgumentPath.extend (path : ArgumentPath) (segments : List PathKey) : ArgumentPath :=
  segments.foldl .keyed path

/-- What has to be done for a raw value, apart from putting collections together. -/
inductive Errand
  /-- Finding the element type of an array. -/
  | elementType (typeName : Option String) (memo : Option ValueType)
  /-- Resolving what is no collection. -/
  | leaf (raw : RawValue)

namespace RawValue

/-- What has to be done for a raw value before its elements. -/
def typing (steps : List Step) : RawValue → List (List Step × Errand)
  | array typeName memo _ => [(steps, .elementType typeName memo)]
  | _ => []

/-- The elements of a raw value that is a collection, but no map. -/
def elements? : RawValue → Option (List RawValue)
  | array _ _ elements => some elements
  | list elements => some elements
  | set elements => some elements
  | _ => none

mutual

/-- The errands of the raw value at the steps, in the order in which they stand: an element type before the
elements, a key before its value. Each comes with the steps to where it is. -/
def errands (steps : List Step) : RawValue → List (List Step × Errand)
  | array typeName memo elements => (steps, .elementType typeName memo) :: errandsOf steps 0 elements
  | list elements => errandsOf steps 0 elements
  | set elements => errandsOf steps 0 elements
  | map entries => errandsOfEntries steps 0 entries
  | raw => [(steps, .leaf raw)]

/-- The errands of the elements of a collection, from a position on. -/
def errandsOf (steps : List Step) : Nat → List RawValue → List (List Step × Errand)
  | _, [] => []
  | position, element :: rest =>
    element.errands (.element position :: steps) ++ errandsOf steps (position + 1) rest

/-- The errands of the entries of a map, from a position on. -/
def errandsOfEntries (steps : List Step) : Nat → List (RawValue × RawValue) → List (List Step × Errand)
  | _, [] => []
  | position, (key, value) :: rest =>
    key.errands (.key position :: steps) ++ value.errands (.value position :: steps) ++
      errandsOfEntries steps (position + 1) rest

end

/-- A raw value is no collection, a collection of elements or a map. -/
theorem kinds (raw : RawValue) :
    raw.isLeaf = true ∨ (∃ elements, raw.elements? = some elements) ∨
      ∃ entries, raw = map entries := by
  cases raw with
  | array _ _ elements => exact .inr (.inl ⟨elements, rfl⟩)
  | list elements => exact .inr (.inl ⟨elements, rfl⟩)
  | set elements => exact .inr (.inl ⟨elements, rfl⟩)
  | map entries => exact .inr (.inr ⟨entries, rfl⟩)
  | _ => exact .inl rfl

theorem parts_of_elements? {raw : RawValue} {elements : List RawValue}
    (h : raw.elements? = some elements) : raw.parts = elements := by
  cases raw with
  | array | list | set => exact Option.some.inj h
  | _ => cases h

variable {steps : List Step}

theorem errands_of_isLeaf {raw : RawValue} (h : raw.isLeaf = true) :
    raw.errands steps = [(steps, .leaf raw)] := by
  cases raw with
  | array | list | set | map => cases h
  | _ => rfl

theorem errands_of_elements? {raw : RawValue} {elements : List RawValue}
    (h : raw.elements? = some elements) :
    raw.errands steps = raw.typing steps ++ errandsOf steps 0 elements := by
  cases raw with
  | array | list | set => cases h; rw [errands]; rfl
  | _ => cases h

theorem errandsOf_append {before behind : List RawValue} {position : Nat} :
    errandsOf steps position (before ++ behind) =
      errandsOf steps position before ++ errandsOf steps (position + before.length) behind := by
  induction before generalizing position with
  | nil => rfl
  | cons element rest ih =>
    rw [List.cons_append, errandsOf, errandsOf, ih, List.append_assoc, List.length_cons,
      Nat.add_right_comm, Nat.add_assoc]

theorem errandsOfEntries_append {before behind : List (RawValue × RawValue)} {position : Nat} :
    errandsOfEntries steps position (before ++ behind) =
      errandsOfEntries steps position before ++
        errandsOfEntries steps (position + before.length) behind := by
  induction before generalizing position with
  | nil => rfl
  | cons entry rest ih =>
    simp only [List.cons_append, errandsOfEntries, ih, List.append_assoc, List.length_cons]
    rw [Nat.add_right_comm, Nat.add_assoc]

/-- The errands of a map around one of its entries. -/
theorem errands_map_append {before behind : List (RawValue × RawValue)} {key value : RawValue} :
    (map (before ++ (key, value) :: behind)).errands steps =
      errandsOfEntries steps 0 before ++ (key.errands (.key before.length :: steps) ++
        value.errands (.value before.length :: steps) ++
          errandsOfEntries steps (before.length + 1) behind) := by
  rw [errands, errandsOfEntries_append, errandsOfEntries, Nat.zero_add]

end RawValue

namespace Work

variable {α : Type} {work : Work α} {world after : World} {stop : Stop}

theorem discard_eq_ok_iff :
    discard work world = (.ok ⟨⟩, after) ↔ ∃ value, work world = (.ok value, after) := by
  refine ⟨discard_eq_ok, ?_⟩
  rintro ⟨value, h⟩
  show ((fun _ => ⟨⟩) <$> work : Work PUnit) world = _
  rw [← bind_pure_comp, bind_apply_ok h]
  rfl

end Work

namespace Resolution

variable (r : Resolution)

/-- Does an errand at a path. -/
def perform (path : ArgumentPath) (steps : List Step) : Errand → Work PUnit
  | .elementType typeName memo => discard (r.elementType path steps typeName memo)
  | .leaf raw => discard (r.resolve path steps raw)

/-- Does what has to be done before the elements of a raw value. -/
def performTyping (path : ArgumentPath) (steps : List Step) : RawValue → Work PUnit
  | .array typeName memo _ => r.perform path steps (.elementType typeName memo)
  | _ => pure ⟨⟩

/-! ## Coming to errands -/

/-- The errand at certain steps is come to when the raw value is resolved, in the last world, once all that
stands before it is resolved. The positions are those that the path goes on with: one for each element that
the errand is in, which counts the elements before it, and one for each value of a map, which is the
resolved key. There is none for a key. -/
inductive Reaches : ArgumentPath → List Step → RawValue → World →
    List PathKey → List Step → Errand → World → Prop
  /-- What is no collection is an errand itself. -/
  | leaf {path : ArgumentPath} {steps : List Step} {raw : RawValue} {world : World}
      (hleaf : raw.isLeaf = true) : Reaches path steps raw world [] steps (.leaf raw) world
  /-- The element type of an array comes first. -/
  | elementType {path : ArgumentPath} {steps : List Step} {typeName : Option String}
      {memo : Option ValueType} {elements : List RawValue} {world : World} :
      Reaches path steps (.array typeName memo elements) world [] steps (.elementType typeName memo) world
  /-- An element comes after those before it. Its position is part of the path. -/
  | element {path : ArgumentPath} {steps place : List Step} {raw element : RawValue}
      {before behind : List RawValue} {values : List Value} {segments : List PathKey} {errand : Errand}
      {world typed reached between : World}
      (hraw : raw.elements? = some (before ++ element :: behind))
      (htyping : r.performTyping path steps raw world = (.ok ⟨⟩, typed))
      (hbefore : r.resolveElements path steps 0 before typed = (.ok values, reached))
      (h : Reaches (path.atIndex before.length) (.element before.length :: steps) element reached segments
        place errand between) :
      Reaches path steps raw world (.index before.length :: segments) place errand between
  /-- A key comes after the entries before it. The path stays as it is. -/
  | key {path : ArgumentPath} {steps place : List Step} {key value : RawValue}
      {before behind : List (RawValue × RawValue)} {resolved : List (Value × Value)}
      {segments : List PathKey} {errand : Errand} {world reached between : World}
      (hbefore : r.resolveEntries path steps 0 before world = (.ok resolved, reached))
      (h : Reaches path (.key before.length :: steps) key reached segments place errand between) :
      Reaches path steps (.map (before ++ (key, value) :: behind)) world segments place errand between
  /-- A value comes after its key. What the key is resolved to is part of the path. -/
  | value {path : ArgumentPath} {steps place : List Step} {key value : RawValue}
      {before behind : List (RawValue × RawValue)} {resolved : List (Value × Value)} {keyValue : Value}
      {segments : List PathKey} {errand : Errand} {world reached keyed between : World}
      (hbefore : r.resolveEntries path steps 0 before world = (.ok resolved, reached))
      (hkey : r.resolve path (.key before.length :: steps) key reached = (.ok keyValue, keyed))
      (h : Reaches (path.atKey keyValue) (.value before.length :: steps) value keyed segments place errand
        between) :
      Reaches path steps (.map (before ++ (key, value) :: behind)) world (.key keyValue :: segments) place
        errand between

/-- Errands are done in turn, each at the positions behind the path where it is located. -/
inductive Performs (path : ArgumentPath)
    (located : List PathKey → List Step → Errand → World → Prop) :
    List (List Step × Errand) → World → World → Prop
  | nil {world : World} : Performs path located [] world world
  | cons {segments : List PathKey} {place : List Step} {errand : Errand}
      {rest : List (List Step × Errand)} {world between after : World}
      (hlocated : located segments place errand world)
      (hdone : r.perform (path.extend segments) place errand world = (.ok ⟨⟩, between))
      (hrest : Performs path located rest between after) :
      Performs path located ((place, errand) :: rest) world after

variable {r} {path : ArgumentPath} {steps : List Step} {world after : World} {stop : Stop}

/-! ## Elements and entries in turn -/

theorem resolveElements_append {before behind : List RawValue} {position : Nat} :
    r.resolveElements path steps position (before ++ behind) =
      r.resolveElements path steps position before >>= fun first =>
        r.resolveElements path steps (position + before.length) behind >>= fun second =>
          pure (first ++ second) := by
  induction before generalizing position with
  | nil => simp [resolveElements]
  | cons element rest ih =>
    simp only [List.cons_append, resolveElements, ih, bind_assoc, pure_bind, List.length_cons]
    rw [Nat.add_right_comm, Nat.add_assoc]

theorem resolveEntries_append {before behind : List (RawValue × RawValue)} {position : Nat} :
    r.resolveEntries path steps position (before ++ behind) =
      r.resolveEntries path steps position before >>= fun first =>
        r.resolveEntries path steps (position + before.length) behind >>= fun second =>
          pure (first ++ second) := by
  induction before generalizing position with
  | nil => simp [resolveEntries]
  | cons entry rest ih =>
    simp only [List.cons_append, resolveEntries, ih, bind_assoc, pure_bind, List.length_cons]
    rw [Nat.add_right_comm, Nat.add_assoc]

section

variable {raw : RawValue} {elements : List RawValue} (hraw : raw.elements? = some elements)

include hraw

/-- A collection of elements is resolved if what comes before them is done and they are resolved. -/
theorem exists_resolve_eq_ok_iff :
    (∃ value, r.resolve path steps raw world = (.ok value, after)) ↔
      ∃ typed values, r.performTyping path steps raw world = (.ok ⟨⟩, typed) ∧
        r.resolveElements path steps 0 elements typed = (.ok values, after) := by
  cases raw with
  | array typeName memo =>
    cases hraw
    simp only [resolve_array_eq_ok_iff, performTyping, perform, Work.discard_eq_ok_iff]
    constructor
    · rintro ⟨_, type, typed, htype, values, hvalues, _⟩
      exact ⟨typed, values, ⟨type, htype⟩, hvalues⟩
    · rintro ⟨typed, values, ⟨type, htype⟩, hvalues⟩
      exact ⟨_, type, typed, htype, values, hvalues, rfl⟩
  | list | set =>
    cases hraw
    simp only [resolve_list_eq_ok_iff, resolve_set_eq_ok_iff, performTyping, Work.pure_eq_ok_iff]
    constructor
    · rintro ⟨_, values, hvalues, _⟩
      exact ⟨world, values, ⟨trivial, rfl⟩, hvalues⟩
    · rintro ⟨_, values, ⟨_, rfl⟩, hvalues⟩
      exact ⟨_, values, hvalues, rfl⟩
  | _ => cases hraw

end

/-! ## Errands done in turn -/

namespace Performs

variable {located located' : List PathKey → List Step → Errand → World → Prop} {path' : ArgumentPath}
  {first second : List (List Step × Errand)} {between : World}

theorem append (h : r.Performs path located first world between)
    (h' : r.Performs path located second between after) :
    r.Performs path located (first ++ second) world after := by
  induction h with
  | nil => exact h'
  | cons hlocated hdone _ ih => exact .cons hlocated hdone (ih h')

/-- What is located behind a longer path is located behind a shorter one. -/
theorem widen (h : r.Performs path located first world after)
    (hlocated : ∀ segments place errand world, located segments place errand world →
      ∃ segments', located' segments' place errand world ∧
        path'.extend segments' = path.extend segments) :
    r.Performs path' located' first world after := by
  induction h with
  | nil => exact .nil
  | cons hfirst hdone _ ih =>
    obtain ⟨segments', hfirst', hpath⟩ := hlocated _ _ _ _ hfirst
    exact .cons hfirst' (hpath ▸ hdone) ih

end Performs

section

variable {raw : RawValue} {typed reached : World}

/-- What comes before the elements is done. -/
theorem performs_typing (h : r.performTyping path steps raw world = (.ok ⟨⟩, after)) :
    r.Performs path (r.Reaches path steps raw world) (raw.typing steps) world after := by
  cases raw with
  | array typeName memo elements => exact .cons .elementType h .nil
  | _ =>
    cases h
    exact .nil

/-- The errands of elements are done if each element's are when it is resolved. -/
theorem performs_elements {before : List RawValue} (behind : List RawValue) {values : List Value}
    (hparts : ∀ element ∈ before, ∀ path steps world value after,
      r.resolve path steps element world = (.ok value, after) →
        r.Performs path (r.Reaches path steps element world) (element.errands steps) world after)
    (hraw : raw.elements? = some (before ++ behind))
    (htyping : r.performTyping path steps raw world = (.ok ⟨⟩, typed))
    (hbefore : r.resolveElements path steps 0 before typed = (.ok values, reached)) :
    r.Performs path (r.Reaches path steps raw world) (RawValue.errandsOf steps 0 before) typed
      reached := by
  induction before using List.reverseRecOn generalizing behind values reached with
  | nil =>
    cases hbefore
    exact .nil
  | append_singleton before element ih =>
    rw [resolveElements_append] at hbefore
    obtain ⟨first, between, hfirst, h⟩ := Work.bind_eq_ok hbefore
    obtain ⟨second, _, hsecond, h⟩ := Work.bind_eq_ok h
    cases h
    obtain ⟨value, _, helement, h⟩ := Work.bind_eq_ok hsecond
    cases h
    rw [Nat.zero_add] at helement
    rw [List.append_assoc] at hraw
    rw [RawValue.errandsOf_append]
    refine (ih _ (fun other hother => hparts other (List.mem_append_left _ hother)) hraw hfirst).append ?_
    rw [RawValue.errandsOf, RawValue.errandsOf, List.append_nil, Nat.zero_add]
    refine (hparts element (by simp) _ _ _ _ _ helement).widen fun segments place errand _ h => ?_
    exact ⟨.index before.length :: segments, .element hraw htyping hfirst h, rfl⟩

theorem performs_entries {before : List (RawValue × RawValue)} (behind : List (RawValue × RawValue))
    {resolved : List (Value × Value)}
    (hparts : ∀ part ∈ (RawValue.map before).parts, ∀ path steps world value after,
      r.resolve path steps part world = (.ok value, after) →
        r.Performs path (r.Reaches path steps part world) (part.errands steps) world after)
    (hbefore : r.resolveEntries path steps 0 before world = (.ok resolved, reached)) :
    r.Performs path (r.Reaches path steps (.map (before ++ behind)) world)
      (RawValue.errandsOfEntries steps 0 before) world reached := by
  -- from the end, as what is in front of an entry was resolved before it
  induction before using List.reverseRecOn generalizing behind resolved reached with
  | nil =>
    cases hbefore
    exact .nil
  | append_singleton before entry ih =>
    obtain ⟨key, value⟩ := entry
    rw [resolveEntries_append] at hbefore
    obtain ⟨first, between, hfirst, h⟩ := Work.bind_eq_ok hbefore
    obtain ⟨second, _, hsecond, h⟩ := Work.bind_eq_ok h
    cases h
    obtain ⟨keyValue, keyed, hkey, h⟩ := Work.bind_eq_ok hsecond
    obtain ⟨result, _, hvalue, h⟩ := Work.bind_eq_ok h
    cases h
    rw [Nat.zero_add] at hkey hvalue
    rw [RawValue.errandsOfEntries_append, List.append_assoc]
    have hlast : (key, value) ∈ before ++ [(key, value)] :=
      List.mem_append_right _ (List.mem_singleton_self _)
    refine (ih _ (fun part hpart => hparts part ?_) hfirst).append ?_
    · rw [RawValue.parts, List.flatMap_append]
      exact List.mem_append_left _ hpart
    rw [RawValue.errandsOfEntries, RawValue.errandsOfEntries, List.append_nil, Nat.zero_add]
    refine ((hparts key (RawValue.key_mem_parts hlast) _ _ _ _ _ hkey).widen
      fun segments place errand _ h => ?_).append
        ((hparts value (RawValue.value_mem_parts hlast) _ _ _ _ _ hvalue).widen
          fun segments place errand _ h => ?_)
    · exact ⟨segments, .key hfirst h, rfl⟩
    · exact ⟨.key keyValue :: segments, .value hfirst hkey h, rfl⟩

end

/-- **If a raw value is resolved, all that has to be done for it is done in turn.** -/
theorem performs_of_resolve_eq_ok {raw : RawValue} {value : Value}
    (h : r.resolve path steps raw world = (.ok value, after)) :
    r.Performs path (r.Reaches path steps raw world) (raw.errands steps) world after := by
  induction raw using RawValue.induction_parts generalizing path steps world value after with
  | step raw ih =>
    rcases raw.kinds with hleaf | ⟨elements, hraw⟩ | ⟨entries, rfl⟩
    · rw [RawValue.errands_of_isLeaf hleaf]
      exact .cons (.leaf hleaf) (Work.discard_eq_ok_iff.mpr ⟨value, h⟩) .nil
    · obtain ⟨typed, values, htyping, hvalues⟩ := (exists_resolve_eq_ok_iff hraw).mp ⟨value, h⟩
      rw [RawValue.errands_of_elements? hraw]
      refine (performs_typing htyping).append (performs_elements [] ?_ ?_ htyping hvalues)
      · exact fun element helement _ _ _ _ _ => ih element (RawValue.parts_of_elements? hraw ▸ helement)
      · rw [List.append_nil, hraw]
    · obtain ⟨resolved, hresolved, rfl⟩ := resolve_map_eq_ok_iff.mp h
      have hdone := performs_entries [] (fun part hpart _ _ _ _ _ => ih part hpart) hresolved
      rwa [List.append_nil] at hdone

/-! ## Failures -/

/-- Resolving a raw value fails at one of its errands, after those before it were done. -/
def FailsAt (r : Resolution) (path : ArgumentPath) (steps : List Step) (raw : RawValue) (world : World)
    (stop : Stop) (after : World) : Prop :=
  ∃ done place errand rest segments between, raw.errands steps = done ++ (place, errand) :: rest ∧
    r.Performs path (r.Reaches path steps raw world) done world between ∧
    r.Reaches path steps raw world segments place errand between ∧
    r.perform (path.extend segments) place errand between = (.error stop, after)

namespace FailsAt

variable {raw element key value : RawValue} {typed reached keyed : World}

section

variable {before : List (RawValue × RawValue)} (behind : List (RawValue × RawValue))
  {resolved : List (Value × Value)}
  (hbefore : r.resolveEntries path steps 0 before world = (.ok resolved, reached))

include hbefore

/-- A map fails where the value of an entry does, after its key was resolved too. -/
theorem of_value {keyValue : Value}
    (hkey : r.resolve path (.key before.length :: steps) key reached = (.ok keyValue, keyed))
    (h : r.FailsAt (path.atKey keyValue) (.value before.length :: steps) value keyed stop after) :
    r.FailsAt path steps (.map (before ++ (key, value) :: behind)) world stop after := by
  obtain ⟨done, place, errand, rest, segments, between, herrands, hdone, hreaches, hfails⟩ := h
  refine ⟨RawValue.errandsOfEntries steps 0 before ++
      (key.errands (.key before.length :: steps) ++ done), place, errand,
    rest ++ RawValue.errandsOfEntries steps (before.length + 1) behind, .key keyValue :: segments,
    between, ?_, ?_, .value hbefore hkey hreaches, hfails⟩
  · rw [RawValue.errands_map_append, herrands]
    simp only [List.append_assoc, List.cons_append]
  · refine (performs_entries _ (fun _ _ _ _ _ _ _ => performs_of_resolve_eq_ok) hbefore).append
      (((performs_of_resolve_eq_ok hkey).widen fun segments _ _ _ h => ?_).append
        (hdone.widen fun segments _ _ _ h => ?_))
    · exact ⟨segments, .key hbefore h, rfl⟩
    · exact ⟨.key keyValue :: segments, .value hbefore hkey h, rfl⟩

end

end FailsAt

end Resolution

end Injector
