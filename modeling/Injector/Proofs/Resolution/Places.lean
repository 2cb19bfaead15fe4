import Injector.ClassTable
import Injector.Proofs.Resolution.Leaves

/-!
# Places in definitions, and the types noted there

The steps from a definition to a part of a raw value are its place (`DefinitionOf.part?`). An array or a
typed text may have a type noted there (`RawValue.memo?`), found for its type name by the classes that
some container knows (`RawValue.Finds`).

Notes change neither what is at a place nor what its type name is (`DefinitionOf.part?_bare`). What is
learnt at one place is noted there, if nothing is, and nowhere else (`DefinitionOf.memo_of_learn`). A
definition that is completed has at each place what the child has there, or else the parent, with the
notes that the parent has (`DefinitionOf.child?_overlay`).
-/

namespace Injector

/-- What is at a position of a list in which one element was changed. -/
theorem getElem?_modify_eq {α : Type} (change : α → α) (values : List α) (index other : Nat) :
    (values.modify index change)[other]? =
      if other = index then values[other]?.map change else values[other]? := by
  rw [List.getElem?_modify]
  split
  · next h =>
    rw [if_pos h.symm]
    rfl
  · next h =>
    rw [if_neg (Ne.symm h)]
    exact Option.map_id'

/-- All classes that find a type for a name find the same one. -/
theorem ClassTable.typeNamed_unique {table other : ClassTable} {name : String} {type type' : ValueType}
    (h : table.typeNamed name = .ok type) (h' : other.typeNamed name = .ok type') : type = type' := by
  unfold typeNamed at h h'
  cases hbuiltin : ValueType.builtin? name with
  | some known =>
    rw [hbuiltin] at h h'
    exact (Except.ok.inj h).symm.trans (Except.ok.inj h')
  | none =>
    rw [hbuiltin] at h h'
    dsimp only at h h'
    split at h
    · split at h'
      · exact (Except.ok.inj h).symm.trans (Except.ok.inj h')
      · cases h'
    · cases h

/-! ## Raw values -/

namespace RawValue

/-- The part of a raw value that one step leads to. -/
def child? : Step → RawValue → Option RawValue
  | .element position, array _ _ elements => elements[position]?
  | .element position, list elements => elements[position]?
  | .element position, set elements => elements[position]?
  | .key position, map entries => entries[position]?.map Prod.fst
  | .value position, map entries => entries[position]?.map Prod.snd
  | _, _ => none

/-- The part of a raw value at a place. -/
def part? : List Step → RawValue → Option RawValue
  | [], raw => some raw
  | step :: place, raw => (raw.child? step).bind (part? place)

/-- The type that is noted for a raw value. -/
def memo? : RawValue → Option ValueType
  | array _ memo _ => memo
  | typed typedText => typedText.memo
  | _ => none

/-- The name of the type that is looked up for a raw value. -/
def typeName? : RawValue → Option String
  | array name _ _ => name
  | typed typedText =>
    match typedText.target with
    | some (.named name) => some name
    | _ => none
  | _ => none

theorem target_of_typeName {typedText : TypedText} {name : String}
    (h : (typed typedText).typeName? = some name) : typedText.target = some (.named name) := by
  unfold typeName? at h
  dsimp only at h
  split at h
  · next htarget =>
    cases h
    exact htarget
  · cases h

/-- What classes find for the type name of a raw value; without a type name, that is anything. -/
def Finds (raw : RawValue) (classes : ClassTable) (type : ValueType) : Prop :=
  match raw.typeName? with
  | some name => classes.typeNamed name = .ok type
  | none => type = .any

theorem typeNamed_of_finds {raw : RawValue} {classes : ClassTable} {name : String} {type : ValueType}
    (hname : raw.typeName? = some name) (h : raw.Finds classes type) :
    classes.typeNamed name = .ok type := by
  unfold Finds at h
  rw [hname] at h
  exact h

theorem part?_concat (place : List Step) (step : Step) (raw : RawValue) :
    raw.part? (place ++ [step]) = (raw.part? place).bind (child? step) := by
  induction place generalizing raw with
  | nil =>
    rw [List.nil_append, part?, part?, Option.bind_some]
    cases raw.child? step <;> rfl
  | cons first place ih =>
    rw [List.cons_append, part?, part?]
    cases raw.child? first with
    | none => rfl
    | some part => exact ih part

/-! ### Notes -/

theorem child?_bare (step : Step) (raw : RawValue) :
    raw.bare.child? step = (raw.child? step).map bare := by
  cases raw <;> cases step <;>
    simp [bare, child?, bareElements_eq_map, bareEntries_eq_map, Option.map_map, Function.comp_def]

theorem part?_bare (place : List Step) (raw : RawValue) :
    raw.bare.part? place = (raw.part? place).map bare := by
  induction place generalizing raw with
  | nil => rfl
  | cons step place ih =>
    rw [part?, part?, child?_bare]
    cases raw.child? step with
    | none => rfl
    | some part => exact ih part

theorem memo?_bare (raw : RawValue) : raw.bare.memo? = none := by
  cases raw <;> simp only [bare, memo?, TypedText.bare]

theorem typeName?_bare (raw : RawValue) : raw.bare.typeName? = raw.typeName? := by
  cases raw <;> simp only [bare, typeName?, TypedText.bare]

theorem finds_of_bare {raw other : RawValue} {classes : ClassTable} {type : ValueType}
    (hbare : raw.bare = other.bare) (h : raw.Finds classes type) : other.Finds classes type := by
  have hname : other.typeName? = raw.typeName? := by
    rw [← typeName?_bare, ← hbare, typeName?_bare]
  unfold Finds at h ⊢
  rw [hname]
  exact h

/-- Learning about the raw value itself leaves its parts as they are. -/
theorem child?_learn_nil (lesson : Lesson) (step : Step) (raw : RawValue) :
    (raw.learn lesson []).child? step = raw.child? step := by
  cases raw <;> cases lesson <;> cases step <;> rfl

/-- Learning about a part changes that part alone. -/
theorem child?_learn_cons (lesson : Lesson) (place : List Step) (step other : Step) (raw : RawValue) :
    (raw.learn lesson (step :: place)).child? other =
      if other = step then (raw.child? other).map (learn lesson place) else raw.child? other := by
  cases step with
  | argument index => cases raw <;> cases other <;> simp [learn, child?]
  | property name => cases raw <;> cases other <;> simp [learn, child?]
  | element position => cases raw <;> cases other <;> simp [learn, child?, getElem?_modify_eq]
  | key position =>
    cases raw with
    | map entries =>
      cases other with
      | key position' =>
        simp only [learn, child?, getElem?_modify_eq, Step.key.injEq]
        split <;> simp [Function.comp_def]
      | value position' =>
        simp only [learn, child?, getElem?_modify_eq]
        split <;> simp [Function.comp_def]
      | _ => simp [learn, child?]
    | properties entries => cases place <;> cases other <;> simp [learn, child?]
    | _ => cases other <;> simp [learn, child?]
  | value position =>
    cases raw with
    | map entries =>
      cases other with
      | key position' =>
        simp only [learn, child?, getElem?_modify_eq]
        split <;> simp [Function.comp_def]
      | value position' =>
        simp only [learn, child?, getElem?_modify_eq, Step.value.injEq]
        split <;> simp [Function.comp_def]
      | _ => simp [learn, child?]
    | properties entries => cases place <;> cases other <;> simp [learn, child?]
    | _ => cases other <;> simp [learn, child?]

theorem memo?_learn_cons (lesson : Lesson) (step : Step) (place : List Step) (raw : RawValue) :
    (raw.learn lesson (step :: place)).memo? = raw.memo? := by
  cases step with
  | key position | value position =>
    cases raw with
    | properties entries => cases place <;> rfl
    | _ => rfl
  | _ => cases raw <;> rfl

/-- What is noted after learning was noted before, or has just been learnt. -/
theorem memo?_learn_nil {lesson : Lesson} {raw : RawValue} {type : ValueType}
    (h : (raw.learn lesson []).memo? = some type) :
    raw.memo? = some type ∨ lesson = .type type := by
  have hor {memo : Option ValueType} {learnt : ValueType}
      (h : memo.or (some learnt) = some type) : memo = some type ∨ Lesson.type learnt = .type type := by
    cases memo with
    | none => exact .inr (congrArg Lesson.type (Option.some.inj h))
    | some known => exact .inl h
  cases raw with
  | array name memo elements =>
    cases lesson with
    | type learnt => exact hor h
    | dynamic => exact .inl h
  | typed typedText =>
    cases lesson with
    | type learnt => exact hor h
    | dynamic => exact .inl h
  | _ => exact .inl h

/-- **What is noted at a place after learning was noted there before, or has just been learnt there.** -/
theorem memo_of_learn {lesson : Lesson} {type : ValueType} :
    ∀ (place spot : List Step) (raw : RawValue) {part : RawValue},
      (raw.learn lesson spot).part? place = some part → part.memo? = some type →
        (∃ before, raw.part? place = some before ∧ before.memo? = some type) ∨
          spot = place ∧ lesson = .type type
  | [], [], raw, part, hpart, hmemo => by
    cases hpart
    exact (memo?_learn_nil hmemo).imp (fun h => ⟨raw, rfl, h⟩) fun h => ⟨rfl, h⟩
  | [], step :: spot, raw, part, hpart, hmemo => by
    cases hpart
    rw [memo?_learn_cons] at hmemo
    exact .inl ⟨raw, rfl, hmemo⟩
  | other :: place, [], raw, part, hpart, hmemo => by
    rw [part?, child?_learn_nil] at hpart
    exact .inl ⟨part, hpart, hmemo⟩
  | other :: place, step :: spot, raw, part, hpart, hmemo => by
    rw [part?, child?_learn_cons] at hpart
    split at hpart
    · next hsame =>
      rw [hsame] at hpart ⊢
      rw [part?]
      cases hchild : raw.child? step with
      | none =>
        rw [hchild] at hpart
        cases hpart
      | some child =>
        rw [hchild] at hpart
        refine (memo_of_learn place spot child hpart hmemo).imp_right ?_
        rintro ⟨rfl, hlesson⟩
        exact ⟨rfl, hlesson⟩
    · exact .inl ⟨part, hpart, hmemo⟩

end RawValue

/-! ## Definitions -/

namespace Bindings

variable {α : Type}

/-- What a name is bound to after setting others one by one was set, or was there before. -/
theorem lookup_foldl_put {name : String} {value : α} {added : List (String × α)} :
    ∀ {bindings : List (String × α)},
      (added.foldl (fun bindings new => put new.1 new.2 bindings) bindings).lookup name = some value →
        (name, value) ∈ added ∨ bindings.lookup name = some value := by
  induction added with
  | nil => exact Or.inr
  | cons new rest ih =>
    intro bindings h
    rw [List.foldl_cons] at h
    rcases ih h with hrest | hput
    · exact .inl (List.mem_cons_of_mem _ hrest)
    · rw [lookup_put] at hput
      split at hput
      · next hname =>
        obtain ⟨key, new⟩ := new
        cases hput
        cases hname
        exact .inl List.mem_cons_self
      · exact .inr hput

theorem nodup_keys_foldl_put {added : List (String × α)} :
    ∀ {bindings : List (String × α)}, (keys bindings).Nodup →
      (keys (added.foldl (fun bindings new => put new.1 new.2 bindings) bindings)).Nodup := by
  induction added with
  | nil => exact id
  | cons new rest ih => exact fun h => ih (nodup_keys_put h)

theorem lookup_map {β : Type} (f : α → β) (name : String) (bindings : List (String × α)) :
    (bindings.map (Prod.map id f)).lookup name = (bindings.lookup name).map f := by
  induction bindings with
  | nil => rfl
  | cons binding rest ih =>
    rw [List.map_cons, Prod.map_apply, lookup_cons, lookup_cons, ih, id]
    split <;> rfl

end Bindings

namespace DefinitionOf

/-- The raw value that one step from a definition leads to. -/
def child? : Step → Definition → Option RawValue
  | .argument index, definition => definition.arguments[index]?
  | .property name, definition => definition.property? name
  | _, _ => none

/-- The part of a definition at a place. -/
def part? : List Step → Definition → Option RawValue
  | [], _ => none
  | step :: place, definition => (definition.child? step).bind (RawValue.part? place)

theorem part?_concat {place : List Step} {definition : Definition} {raw : RawValue}
    (h : definition.part? place = some raw) (step : Step) :
    definition.part? (place ++ [step]) = raw.child? step := by
  cases place with
  | nil => cases h
  | cons first place =>
    rw [part?] at h
    obtain ⟨child, hchild, hrest⟩ := Option.bind_eq_some_iff.mp h
    rw [List.cons_append, part?, hchild, Option.bind_some, RawValue.part?_concat, hrest, Option.bind_some]

/-! ### Notes -/

theorem child?_bare (step : Step) (definition : Definition) :
    definition.bare.child? step = (definition.child? step).map RawValue.bare := by
  cases step with
  | argument index => exact List.getElem?_map
  | property name => exact Bindings.lookup_map _ name definition.properties
  | _ => rfl

theorem part?_bare (place : List Step) (definition : Definition) :
    definition.bare.part? place = (definition.part? place).map RawValue.bare := by
  cases place with
  | nil => rfl
  | cons step place =>
    rw [part?, part?, child?_bare]
    cases definition.child? step with
    | none => rfl
    | some raw => exact raw.part?_bare place

/-- Definitions that differ in notes have the same at each place, but for notes. -/
theorem part_of_bare {definition other : Definition} (hbare : definition.bare = other.bare)
    {place : List Step} {part : RawValue} (h : definition.part? place = some part) :
    ∃ part', other.part? place = some part' ∧ part'.bare = part.bare := by
  have hparts := other.part?_bare place
  rw [← hbare, part?_bare, h] at hparts
  exact Option.map_eq_some_iff.mp hparts.symm

theorem child?_learn (lesson : Lesson) (place : List Step) (step other : Step)
    (definition : Definition) :
    (definition.learn lesson (step :: place)).child? other =
      if other = step then (definition.child? other).map (RawValue.learn lesson place)
      else definition.child? other := by
  cases step with
  | argument index => cases other <;> simp [learn, child?, property?, getElem?_modify_eq]
  | property name => cases other <;> simp [learn, child?, property?, Bindings.lookup_adjust]
  | _ => cases other <;> simp [learn, child?, property?]

/-- **What is noted at a place of a definition after learning was noted there before, or has just been
learnt there.** -/
theorem memo_of_learn {lesson : Lesson} {type : ValueType} {spot place : List Step}
    {definition : Definition} {part : RawValue}
    (hpart : (definition.learn lesson spot).part? place = some part) (hmemo : part.memo? = some type) :
    (∃ before, definition.part? place = some before ∧ before.memo? = some type) ∨
      spot = place ∧ lesson = .type type := by
  cases place with
  | nil => cases hpart
  | cons other place =>
    cases spot with
    | nil => exact .inl ⟨part, hpart, hmemo⟩
    | cons step spot =>
      rw [part?, child?_learn] at hpart
      rw [part?]
      split at hpart
      · next hsame =>
        rw [hsame] at hpart ⊢
        cases hchild : definition.child? step with
        | none =>
          rw [hchild] at hpart
          cases hpart
        | some raw =>
          rw [hchild] at hpart
          refine (RawValue.memo_of_learn place spot raw hpart hmemo).imp_right ?_
          rintro ⟨rfl, hlesson⟩
          exact ⟨rfl, hlesson⟩
      · exact .inl ⟨part, hpart, hmemo⟩

theorem wellFormed_bare {definition : Definition} :
    definition.bare.WellFormed ↔ definition.WellFormed := by
  unfold WellFormed bare Bindings.keys
  dsimp only
  rw [List.map_map]
  rfl

theorem WellFormed.learn {definition : Definition} (h : definition.WellFormed) (lesson : Lesson)
    (place : List Step) : (definition.learn lesson place).WellFormed := by
  unfold WellFormed DefinitionOf.learn
  split
  · exact h
  · dsimp only
    rw [Bindings.keys_adjust]
    exact h
  · exact h

/-! ### Completing -/

theorem WellFormed.overlay {parent : Definition} (h : parent.WellFormed) (child : Definition) :
    (parent.overlay child).WellFormed :=
  Bindings.nodup_keys_foldl_put h

/-- Where a completed definition has something, it is the child's or the parent's. -/
theorem child?_overlay {parent child : Definition} (h : child.WellFormed) {step : Step}
    {raw : RawValue} (hchild : (parent.overlay child).child? step = some raw) :
    parent.child? step = some raw ∨ child.child? step = some raw := by
  cases step with
  | argument index =>
    unfold child? overlay at hchild
    dsimp only at hchild
    split at hchild
    · exact .inl hchild
    · exact .inr hchild
  | property name =>
    rcases Bindings.lookup_foldl_put hchild with hmem | hparent
    · exact .inr (Bindings.lookup_of_mem h hmem)
    · exact .inl hparent
  | _ => cases hchild

theorem part?_overlay {parent child : Definition} (h : child.WellFormed) {place : List Step}
    {part : RawValue} (hpart : (parent.overlay child).part? place = some part) :
    parent.part? place = some part ∨ child.part? place = some part := by
  cases place with
  | nil => cases hpart
  | cons step place =>
    obtain ⟨raw, hraw, hrest⟩ := Option.bind_eq_some_iff.mp hpart
    refine (child?_overlay h hraw).imp (fun hparent => ?_) fun hown => ?_
    · rw [part?, hparent]
      exact hrest
    · rw [part?, hown]
      exact hrest

theorem within_eq (definition : Definition) (containing : Option Definition) :
    ∃ declaredScope, definition.within containing =
      { definition with declaredScope := declaredScope } := by
  unfold within
  split
  · split
    · exact ⟨_, rfl⟩
    · exact ⟨definition.declaredScope, rfl⟩
  · exact ⟨definition.declaredScope, rfl⟩

end DefinitionOf

end Injector
