import Injector.Proofs.Merging.Notes
import Injector.Resolution
import Mathlib.Data.List.Basic

/-!
# What raw values are made of

Resolving a raw value enters collections and stops at everything else, its leaves. What holds of a raw
value if it holds of its parts holds of all raw values (`RawValue.induction_parts`), and so whatever is
shown of resolution goes from the parts to the whole. What is done at the leaves is a matter of the texts
that are evaluated (`RawValue.texts`) and of the nested definitions that are built (`RawValue.nested`). A
definition has those of its arguments and properties.

Notes change neither (`DefinitionOf.texts_bare`, `DefinitionOf.nested_bare`), and a definition that is
completed has no others than its parent and itself (`DefinitionOf.texts_overlay`,
`DefinitionOf.nested_overlay`). What is nested is smaller, so finitely many definitions have finitely
many definitions within them (`DefinitionOf.exists_closed`).
-/

namespace Injector

namespace RawValue

/-! ## Parts -/

/-- The raw values that a collection holds. -/
def parts : RawValue → List RawValue
  | array _ _ elements => elements
  | list elements => elements
  | set elements => elements
  | map entries => entries.flatMap fun entry => [entry.1, entry.2]
  | _ => []

theorem key_mem_parts {entries : List (RawValue × RawValue)} {entry : RawValue × RawValue}
    (h : entry ∈ entries) : entry.1 ∈ (map entries).parts :=
  List.mem_flatMap.mpr ⟨entry, h, List.mem_cons_self⟩

theorem value_mem_parts {entries : List (RawValue × RawValue)} {entry : RawValue × RawValue}
    (h : entry ∈ entries) : entry.2 ∈ (map entries).parts :=
  List.mem_flatMap.mpr ⟨entry, h, List.mem_cons_of_mem _ List.mem_cons_self⟩

theorem parts_bare (raw : RawValue) : raw.bare.parts = raw.parts.map bare := by
  cases raw with
  | array | list | set => simp only [bare, parts, bareElements_eq_map]
  | map entries =>
    simp only [bare, parts, bareEntries_eq_map, List.flatMap_map, List.map_flatMap, Prod.map_fst,
      Prod.map_snd, List.map_cons, List.map_nil]
  | _ => simp only [bare, parts, List.map_nil]

theorem sizeOf_lt_of_mem_parts {raw part : RawValue} (h : part ∈ raw.parts) :
    sizeOf part < sizeOf raw := by
  cases raw with
  | array _ _ elements | list elements | set elements =>
    have hlt : sizeOf part < sizeOf elements := List.sizeOf_lt_of_mem h
    simp only [array.sizeOf_spec, list.sizeOf_spec, set.sizeOf_spec]
    omega
  | map entries =>
    obtain ⟨⟨key, value⟩, hentry, hpart⟩ := List.mem_flatMap.mp h
    have hlt := List.sizeOf_lt_of_mem hentry
    simp only [Prod.mk.sizeOf_spec] at hlt
    simp only [map.sizeOf_spec]
    rcases List.mem_pair.mp hpart with rfl | rfl <;> omega
  | _ => cases h

/-- **What holds of a raw value if it holds of its parts holds of all raw values.** -/
@[elab_as_elim]
theorem induction_parts {P : RawValue → Prop}
    (step : ∀ raw : RawValue, (∀ part ∈ raw.parts, P part) → P raw) (raw : RawValue) : P raw :=
  step raw fun part _ => induction_parts step part
termination_by sizeOf raw
decreasing_by exact sizeOf_lt_of_mem_parts ‹_›

/-! ## Leaves -/

mutual

/-- The parts of a raw value that are no collections, in the order in which they are resolved. -/
def leaves : RawValue → List RawValue
  | array _ _ elements => leavesOf elements
  | list elements => leavesOf elements
  | set elements => leavesOf elements
  | map entries => leavesOfEntries entries
  | raw => [raw]

/-- The leaves of a sequence. -/
def leavesOf : List RawValue → List RawValue
  | [] => []
  | element :: rest => element.leaves ++ leavesOf rest

/-- The leaves of the keys and values of a map. -/
def leavesOfEntries : List (RawValue × RawValue) → List RawValue
  | [] => []
  | (key, value) :: rest => key.leaves ++ value.leaves ++ leavesOfEntries rest

end

theorem leavesOf_eq_flatMap : ∀ elements : List RawValue, leavesOf elements = elements.flatMap leaves
  | [] => rfl
  | element :: rest => by rw [leavesOf, leavesOf_eq_flatMap rest, List.flatMap_cons]

theorem leavesOfEntries_eq_flatMap :
    ∀ entries : List (RawValue × RawValue),
      leavesOfEntries entries = entries.flatMap fun entry => entry.1.leaves ++ entry.2.leaves
  | [] => rfl
  | (key, value) :: rest => by
    rw [leavesOfEntries, leavesOfEntries_eq_flatMap rest, List.flatMap_cons]

/-- Whether a raw value is no collection. -/
def isLeaf : RawValue → Bool
  | array .. | list _ | set _ | map _ => false
  | _ => true

theorem isLeaf_bare (raw : RawValue) : raw.bare.isLeaf = raw.isLeaf := by
  cases raw <;> simp only [bare, isLeaf]

theorem leaves_of_isLeaf {raw : RawValue} (h : raw.isLeaf = true) : raw.leaves = [raw] := by
  cases raw with
  | array | list | set | map => cases h
  | _ => rfl

theorem leaves_of_collection {raw : RawValue} (h : raw.isLeaf = false) :
    raw.leaves = raw.parts.flatMap leaves := by
  cases raw with
  | array | list | set => rw [leaves, leavesOf_eq_flatMap, parts]
  | map entries =>
    rw [leaves, leavesOfEntries_eq_flatMap, parts, List.flatMap_assoc]
    simp only [List.flatMap_cons, List.flatMap_nil, List.append_nil]
  | _ => cases h

theorem mem_leaves_of_mem_parts {raw part leaf : RawValue} (hpart : part ∈ raw.parts)
    (hleaf : leaf ∈ part.leaves) : leaf ∈ raw.leaves := by
  have hcollection : raw.isLeaf = false := by
    cases raw with
    | array | list | set | map => rfl
    | _ => cases hpart
  rw [leaves_of_collection hcollection]
  exact List.mem_flatMap_of_mem hpart hleaf

/-- No leaf is a collection. -/
theorem isLeaf_of_mem_leaves {raw leaf : RawValue} (h : leaf ∈ raw.leaves) : leaf.isLeaf = true := by
  induction raw using induction_parts with
  | step raw ih =>
    cases hraw : raw.isLeaf with
    | true =>
      rw [leaves_of_isLeaf hraw, List.mem_singleton] at h
      rw [h, hraw]
    | false =>
      rw [leaves_of_collection hraw] at h
      obtain ⟨part, hpart, hleaf⟩ := List.mem_flatMap.mp h
      exact ih part hpart hleaf

/-- Taking off the notes takes them off the leaves. -/
theorem leaves_bare (raw : RawValue) : raw.bare.leaves = raw.leaves.map bare := by
  induction raw using induction_parts with
  | step raw ih =>
    cases hraw : raw.isLeaf with
    | true =>
      rw [leaves_of_isLeaf hraw, leaves_of_isLeaf ((isLeaf_bare raw).trans hraw), List.map_cons,
        List.map_nil]
    | false =>
      rw [leaves_of_collection hraw, leaves_of_collection ((isLeaf_bare raw).trans hraw), parts_bare,
        List.flatMap_map, List.map_flatMap]
      exact List.flatMap_congr ih

end RawValue

/-! ## Texts -/

/-- The texts of a reference that are evaluated. -/
def Reference.texts (reference : Reference) : List String :=
  if reference.inParent && reference.type.isNone then [reference.target] else reference.name.toList

/-- The text of a key or value that is evaluated. -/
def PropertyText.texts : PropertyText → List String
  | plain _ => []
  | typed typedText => typedText.text.toList

/-- The texts of a value that are evaluated. -/
def Value.texts : Value → List String
  | .text content => [content]
  | .array .text items => items.filterMap Value.text?
  | _ => []

/-- The texts of a leaf that are evaluated. -/
def RawValue.leafTexts : RawValue → List String
  | .reference target => target.texts
  | .nameReference name => [name]
  | .properties entries => entries.flatMap fun entry => entry.1.texts ++ entry.2.texts
  | .typed typedText => typedText.text.toList
  | .literal value => value.texts
  | _ => []

/-- The texts of a raw value that are evaluated. -/
def RawValue.texts (raw : RawValue) : List String :=
  raw.leaves.flatMap leafTexts

/-! ## Nested definitions -/

/-- The nested definition that a leaf is, with the name it goes by. -/
def RawValue.nested? : RawValue → Option (String × Definition)
  | .inner identity definition => some (anonymousName identity, definition)
  | .holder name _ definition => some (name, definition)
  | _ => none

/-- The nested definitions of a raw value. -/
def RawValue.nested (raw : RawValue) : List (String × Definition) :=
  raw.leaves.filterMap nested?

namespace RawValue

/-- Of a leaf, its own texts are evaluated. -/
theorem texts_of_leaf {raw : RawValue} (h : raw.leaves = [raw]) : raw.texts = raw.leafTexts := by
  unfold texts
  rw [h]
  exact List.append_nil _

theorem leafTexts_bare (raw : RawValue) : raw.bare.leafTexts = raw.leafTexts := by
  cases raw with
  | properties entries =>
    rw [bare, leafTexts, leafTexts, List.flatMap_map]
    refine List.flatMap_congr fun entry _ => ?_
    obtain ⟨key, value⟩ := entry
    cases key <;> cases value <;> rfl
  | typed typedText => rfl
  | _ => simp only [bare, leafTexts]

/-- **Notes do not change which texts are evaluated.** -/
theorem texts_bare (raw : RawValue) : raw.bare.texts = raw.texts := by
  unfold texts
  rw [leaves_bare, List.flatMap_map]
  exact List.flatMap_congr fun leaf _ => leafTexts_bare leaf

/-- **Notes do not change what is nested.** -/
theorem nested_bare (raw : RawValue) : raw.bare.nested = raw.nested := by
  unfold nested
  rw [leaves_bare, List.filterMap_map]
  refine List.filterMap_congr fun leaf _ => ?_
  cases leaf <;> simp only [Function.comp_apply, bare, nested?]

end RawValue

/-! ## Definitions -/

/-- Of properties that are set one after the other, each is one of those that were there or were set. -/
theorem Bindings.mem_foldl_put {α : Type} {binding : String × α} {added : List (String × α)} :
    ∀ {bindings : List (String × α)},
      binding ∈ added.foldl (fun bindings new => put new.1 new.2 bindings) bindings →
        binding ∈ bindings ∨ binding ∈ added := by
  induction added with
  | nil => exact Or.inl
  | cons new rest ih =>
    intro bindings h
    rw [List.foldl_cons] at h
    rcases ih h with hput | hrest
    · rcases mem_put hput with rfl | hold
      · exact Or.inr List.mem_cons_self
      · exact Or.inl hold
    · exact Or.inr (List.mem_cons_of_mem _ hrest)

namespace DefinitionOf

/-- The raw values of a definition. -/
def raws (definition : Definition) : List RawValue :=
  definition.arguments ++ definition.properties.map Prod.snd

/-- The leaves of the raw values of a definition. -/
def leaves (definition : Definition) : List RawValue :=
  definition.raws.flatMap RawValue.leaves

/-- The texts of a definition that are evaluated. -/
def texts (definition : Definition) : List String :=
  definition.raws.flatMap RawValue.texts

/-- The definitions nested in a definition. -/
def nested (definition : Definition) : List (String × Definition) :=
  definition.raws.flatMap RawValue.nested

/-- What is nested in a definition is one of its leaves. -/
theorem mem_nested_iff {definition : Definition} {inner : String × Definition} :
    inner ∈ definition.nested ↔ ∃ leaf ∈ definition.leaves, leaf.nested? = some inner := by
  unfold nested leaves RawValue.nested
  rw [← List.filterMap_flatMap, List.mem_filterMap]

theorem raws_bare (definition : Definition) :
    definition.bare.raws = definition.raws.map RawValue.bare := by
  simp only [raws, bare, List.map_append, List.map_map]
  rfl

theorem texts_bare (definition : Definition) : definition.bare.texts = definition.texts := by
  unfold texts
  rw [raws_bare, List.flatMap_map]
  exact List.flatMap_congr fun raw _ => raw.texts_bare

theorem nested_bare (definition : Definition) : definition.bare.nested = definition.nested := by
  unfold nested
  rw [raws_bare, List.flatMap_map]
  exact List.flatMap_congr fun raw _ => raw.nested_bare

/-- A definition that is completed has raw values of its parent and of itself. -/
theorem raws_overlay (parent child : Definition) {raw : RawValue}
    (h : raw ∈ (parent.overlay child).raws) : raw ∈ parent.raws ∨ raw ∈ child.raws := by
  simp only [raws, overlay, List.mem_append] at h ⊢
  rcases h with harguments | hproperties
  · split at harguments
    · exact Or.inl (Or.inl harguments)
    · exact Or.inr (Or.inl harguments)
  · obtain ⟨binding, hbinding, rfl⟩ := List.mem_map.mp hproperties
    rcases Bindings.mem_foldl_put hbinding with hparent | hchild
    · exact Or.inl (Or.inr (List.mem_map_of_mem hparent))
    · exact Or.inr (Or.inr (List.mem_map_of_mem hchild))

theorem texts_overlay (parent child : Definition) {text : String}
    (h : text ∈ (parent.overlay child).texts) : text ∈ parent.texts ∨ text ∈ child.texts := by
  obtain ⟨raw, hraw, htext⟩ := List.mem_flatMap.mp h
  exact (raws_overlay parent child hraw).imp
    (fun hparent => List.mem_flatMap_of_mem hparent htext)
    fun hchild => List.mem_flatMap_of_mem hchild htext

theorem nested_overlay (parent child : Definition) {inner : String × Definition}
    (h : inner ∈ (parent.overlay child).nested) :
    inner ∈ parent.nested ∨ inner ∈ child.nested := by
  obtain ⟨raw, hraw, hinner⟩ := List.mem_flatMap.mp h
  exact (raws_overlay parent child hraw).imp
    (fun hparent => List.mem_flatMap_of_mem hparent hinner)
    fun hchild => List.mem_flatMap_of_mem hchild hinner

end DefinitionOf

/-! ## Sizes -/

namespace RawValue

theorem sizeOf_le_of_mem_leaves {raw leaf : RawValue} (h : leaf ∈ raw.leaves) :
    sizeOf leaf ≤ sizeOf raw := by
  induction raw using induction_parts with
  | step raw ih =>
    cases hraw : raw.isLeaf with
    | true =>
      rw [leaves_of_isLeaf hraw, List.mem_singleton] at h
      exact Nat.le_of_eq (congrArg sizeOf h)
    | false =>
      rw [leaves_of_collection hraw] at h
      obtain ⟨part, hpart, hleaf⟩ := List.mem_flatMap.mp h
      exact Nat.le_trans (ih part hpart hleaf) (Nat.le_of_lt (sizeOf_lt_of_mem_parts hpart))

theorem sizeOf_lt_of_nested {raw : RawValue} {inner : String × Definition} (h : inner ∈ raw.nested) :
    sizeOf inner.2 < sizeOf raw := by
  obtain ⟨leaf, hleaf, hinner⟩ := List.mem_filterMap.mp h
  refine Nat.lt_of_lt_of_le ?_ (sizeOf_le_of_mem_leaves hleaf)
  cases leaf with
  | inner identity definition =>
    cases hinner
    simp only [inner.sizeOf_spec]
    omega
  | holder name aliases definition =>
    cases hinner
    simp only [holder.sizeOf_spec]
    omega
  | _ => cases hinner

end RawValue

namespace DefinitionOf

/-- **A nested definition is smaller than the one around it.** -/
theorem sizeOf_lt_of_nested {definition : Definition} {inner : String × Definition}
    (h : inner ∈ definition.nested) : sizeOf inner.2 < sizeOf definition := by
  obtain ⟨raw, hraw, hinner⟩ := List.mem_flatMap.mp h
  have hsize := RawValue.sizeOf_lt_of_nested hinner
  obtain ⟨className, parent, declaredScope, dependsOn, synthetic, primary, lazy, resource, arguments,
    properties⟩ := definition
  simp only [mk.sizeOf_spec]
  rcases List.mem_append.mp hraw with hmem | hmem
  · have := List.sizeOf_lt_of_mem hmem
    dsimp only at this
    omega
  · obtain ⟨⟨name, value⟩, hproperty, rfl⟩ := List.mem_map.mp hmem
    have := List.sizeOf_lt_of_mem hproperty
    simp only [Prod.mk.sizeOf_spec] at this
    dsimp only at hsize
    omega

/-- Finitely many definitions have finitely many definitions within them, if each of them has. -/
theorem exists_closed_of_forall :
    ∀ {inners : List (String × Definition)},
      (∀ inner ∈ inners, ∃ within : List (String × Definition), inner.2.nested ⊆ within ∧
        ∀ other ∈ within, other.2.nested ⊆ within) →
      ∃ within : List (String × Definition), inners ⊆ within ∧
        ∀ inner ∈ within, inner.2.nested ⊆ within
  | [], _ => ⟨[], List.Subset.refl _, fun _ h => nomatch h⟩
  | first :: rest, h => by
    obtain ⟨own, hown, hownClosed⟩ := h first List.mem_cons_self
    obtain ⟨others, hothers, hothersClosed⟩ :=
      exists_closed_of_forall fun inner hinner => h inner (List.mem_cons_of_mem _ hinner)
    refine ⟨first :: (own ++ others), ?_, ?_⟩
    · exact List.cons_subset_cons _ (List.Subset.trans hothers (List.subset_append_right _ _))
    · intro inner hinner
      refine List.Subset.trans ?_ (List.subset_cons_self _ _)
      rcases List.mem_cons.mp hinner with rfl | hinner
      · exact List.Subset.trans hown (List.subset_append_left _ _)
      · rcases List.mem_append.mp hinner with hinner | hinner
        · exact List.Subset.trans (hownClosed _ hinner) (List.subset_append_left _ _)
        · exact List.Subset.trans (hothersClosed _ hinner) (List.subset_append_right _ _)

theorem exists_within (definition : Definition) :
    ∃ within : List (String × Definition), definition.nested ⊆ within ∧
      ∀ inner ∈ within, inner.2.nested ⊆ within :=
  exists_closed_of_forall fun inner _ => exists_within inner.2
termination_by sizeOf definition
decreasing_by
  rename_i hinner
  exact sizeOf_lt_of_nested hinner

/-- **Finitely many definitions have finitely many definitions within them.** -/
theorem exists_closed (inners : List (String × Definition)) :
    ∃ within : List (String × Definition), inners ⊆ within ∧
      ∀ inner ∈ within, inner.2.nested ⊆ within :=
  exists_closed_of_forall fun inner _ => inner.2.exists_within

end DefinitionOf

end Injector
