import Injector.Proofs.Requests.Preservation
import Injector.Proofs.Resolution.Leaves
import Injector.Proofs.Values.Gathering

/-!
# Collections, element by element

What resolving a raw value gives is told by `Resolution.Resolves`, which has one rule for each kind of
collection: how the values of the elements, or of the keys and values of the entries, make the value of
the whole, and which world each of them is resolved in. Resolving gives a value exactly if there are such
values (`Resolution.resolves_elementwise`).

`InTurn` does the same thing with one member of a sequence after the other, and `inTurn_iff` tells what
becomes of each. A `Course` is the worlds in between.
-/

namespace Injector

variable {α β : Type}

/-! ## One thing after the other -/

/-- The worlds that are reached one after the other when work is done in so many parts. -/
structure Course (world : World) (parts : Nat) (after : World) where
  /-- The world that is reached when so many parts are done. -/
  reached : Nat → World
  start : reached 0 = world
  finish : reached parts = after

/-- No parts: the world stays as it is. -/
def Course.nil (world : World) : Course world 0 world where
  reached _ := world
  start := rfl
  finish := rfl

/-- One part more, done before the others. -/
def Course.cons (world : World) {between after : World} {parts : Nat}
    (course : Course between parts after) : Course world (parts + 1) after where
  reached
    | 0 => world
    | i + 1 => course.reached i
  start := rfl
  finish := course.finish

/-- The same is done with each member of a sequence, from a position on: in the world that those before it
have left. -/
inductive InTurn (does : Nat → α → World → β → World → Prop) :
    Nat → List α → World → List β → World → Prop
  | nil {position : Nat} {world : World} : InTurn does position [] world [] world
  | cons {position : Nat} {x : α} {xs : List α} {world between after : World} {y : β} {ys : List β}
      (hfirst : does position x world y between) (hrest : InTurn does (position + 1) xs between ys after) :
      InTurn does position (x :: xs) world (y :: ys) after

section InTurn

variable {does : Nat → α → World → β → World → Prop} {xs : List α} {ys : List β}
  {world after : World}

theorem inTurn_nil_iff {position : Nat} :
    InTurn does position [] world ys after ↔ ys = [] ∧ world = after := by
  constructor
  · rintro ⟨⟩
    exact ⟨rfl, rfl⟩
  · rintro ⟨rfl, rfl⟩
    exact .nil

theorem inTurn_cons_iff {position : Nat} {x : α} :
    InTurn does position (x :: xs) world ys after ↔
      ∃ y rest between, ys = y :: rest ∧ does position x world y between ∧
        InTurn does (position + 1) xs between rest after := by
  constructor
  · rintro (_ | ⟨hfirst, hrest⟩)
    exact ⟨_, _, _, rfl, hfirst, hrest⟩
  · rintro ⟨y, rest, between, rfl, hfirst, hrest⟩
    exact .cons hfirst hrest

/-- There is one result for each member, in order. -/
theorem inTurn_iff {position : Nat} :
    InTurn does position xs world ys after ↔
      ∃ (course : Course world xs.length after) (_ : ys.length = xs.length),
        ∀ i (_ : i < xs.length),
          does (position + i) xs[i] (course.reached i) ys[i] (course.reached (i + 1)) := by
  constructor
  · intro h
    induction h with
    | nil => exact ⟨.nil _, rfl, nofun⟩
    | @cons position x xs world between after y ys hfirst _ ih =>
      obtain ⟨course, hlength, hrest⟩ := ih
      refine ⟨course.cons world, congrArg (· + 1) hlength, fun i hi => ?_⟩
      cases i with
      | zero =>
        show does position x world y (course.reached 0)
        rw [course.start]
        exact hfirst
      | succ i =>
        have hnext := hrest i (Nat.lt_of_succ_lt_succ hi)
        rw [Nat.add_right_comm] at hnext
        exact hnext
  · -- a course is a function on positions, so its rest is the function behind the first one
    rintro ⟨⟨reached, rfl, rfl⟩, hlength, h⟩
    induction xs generalizing position ys reached with
    | nil =>
      rw [List.length_eq_zero_iff.mp hlength]
      exact .nil
    | cons x xs ih =>
      cases ys with
      | nil => cases hlength
      | cons y ys =>
        refine .cons (h 0 (Nat.zero_lt_succ _))
          (ih (fun i => reached (i + 1)) (Nat.succ.inj hlength) fun i hi => ?_)
        have hnext := h (i + 1) (Nat.succ_lt_succ hi)
        rw [← Nat.add_assoc, Nat.add_right_comm] at hnext
        exact hnext

end InTurn

namespace Work

/-- Work is done for a sequence if it is done for each member in turn. -/
theorem mapM_eq_ok_iff {work : α → Work β} {xs : List α} {world after : World} {ys : List β}
    (position : Nat) :
    xs.mapM work world = (.ok ys, after) ↔
      InTurn (fun _ x before y behind => work x before = (.ok y, behind)) position xs world ys after := by
  induction xs generalizing position world ys after with
  | nil => rw [List.mapM_nil, pure_eq_ok_iff, inTurn_nil_iff, eq_comm]
  | cons x xs ih =>
    rw [List.mapM_cons, bind_eq_ok_iff, inTurn_cons_iff]
    simp only [bind_eq_ok_iff, pure_eq_ok_iff, ih (position + 1)]
    constructor
    · rintro ⟨y, between, hfirst, rest, _, hrest, rfl, rfl⟩
      exact ⟨y, rest, between, rfl, hfirst, hrest⟩
    · rintro ⟨y, rest, between, rfl, hfirst, hrest⟩
      exact ⟨y, between, hfirst, rest, after, hrest, rfl, rfl⟩

end Work

/-! ## Raw values -/

namespace RawValue

/-- The elements of a literal array of texts. -/
def texts? : RawValue → Option (List Value)
  | .literal (.array .text items) => some items
  | _ => none

theorem eq_of_texts? {raw : RawValue} {items : List Value} (h : raw.texts? = some items) :
    raw = .literal (.array .text items) := by
  unfold texts? at h
  split at h
  · cases h
    rfl
  · cases h

end RawValue

namespace Resolution

variable (r : Resolution)

/-! ## Elements and entries -/

section

variable {r} {path : ArgumentPath} {steps : List Step} {world after : World}

theorem resolveElements_eq_ok_iff_inTurn {elements : List RawValue} {values : List Value}
    {position : Nat} :
    r.resolveElements path steps position elements world = (.ok values, after) ↔
      InTurn (fun i element before value behind =>
        r.resolve (path.atIndex i) (.element i :: steps) element before = (.ok value, behind))
        position elements world values after := by
  induction elements generalizing position world values after with
  | nil => rw [resolveElements, Work.pure_eq_ok_iff, inTurn_nil_iff, eq_comm]
  | cons element rest ih =>
    rw [resolveElements, inTurn_cons_iff]
    simp only [Work.bind_eq_ok_iff, Work.pure_eq_ok_iff, ih]
    constructor
    · rintro ⟨value, between, hfirst, others, _, hrest, rfl, rfl⟩
      exact ⟨value, others, between, rfl, hfirst, hrest⟩
    · rintro ⟨value, others, between, rfl, hfirst, hrest⟩
      exact ⟨value, between, hfirst, others, after, hrest, rfl, rfl⟩

/-- Elements are resolved if each is, in the world that those before it have left. -/
theorem resolveElements_eq_ok_iff {elements : List RawValue} {values : List Value} :
    r.resolveElements path steps 0 elements world = (.ok values, after) ↔
      ∃ (course : Course world elements.length after) (_ : values.length = elements.length),
        ∀ i (_ : i < elements.length),
          r.resolve (path.atIndex i) (.element i :: steps) elements[i] (course.reached i) =
            (.ok values[i], course.reached (i + 1)) := by
  rw [resolveElements_eq_ok_iff_inTurn, inTurn_iff]
  simp only [Nat.zero_add]

theorem resolveEntries_eq_ok_iff_inTurn {entries : List (RawValue × RawValue)}
    {resolved : List (Value × Value)} {position : Nat} :
    r.resolveEntries path steps position entries world = (.ok resolved, after) ↔
      InTurn (fun i entry before (pair : Value × Value) behind => ∃ between,
        r.resolve path (.key i :: steps) entry.1 before = (.ok pair.1, between) ∧
        r.resolve (path.atKey pair.1) (.value i :: steps) entry.2 between = (.ok pair.2, behind))
        position entries world resolved after := by
  induction entries generalizing position world resolved after with
  | nil => rw [resolveEntries, Work.pure_eq_ok_iff, inTurn_nil_iff, eq_comm]
  | cons entry rest ih =>
    obtain ⟨key, value⟩ := entry
    rw [resolveEntries, inTurn_cons_iff]
    simp only [Work.bind_eq_ok_iff, Work.pure_eq_ok_iff, ih]
    constructor
    · rintro ⟨k, between, hkey, v, behind, hvalue, others, _, hrest, rfl, rfl⟩
      exact ⟨(k, v), others, behind, rfl, ⟨between, hkey, hvalue⟩, hrest⟩
    · rintro ⟨⟨k, v⟩, others, behind, rfl, ⟨between, hkey, hvalue⟩, hrest⟩
      exact ⟨k, between, hkey, v, behind, hvalue, others, after, hrest, rfl, rfl⟩

/-- Entries are resolved if each is: its key, and then its value in the world that the key has left. -/
theorem resolveEntries_eq_ok_iff {entries : List (RawValue × RawValue)}
    {resolved : List (Value × Value)} :
    r.resolveEntries path steps 0 entries world = (.ok resolved, after) ↔
      ∃ (course : Course world entries.length after) (_ : resolved.length = entries.length),
        ∀ i (_ : i < entries.length), ∃ between,
          r.resolve path (.key i :: steps) entries[i].1 (course.reached i) =
            (.ok resolved[i].1, between) ∧
          r.resolve (path.atKey resolved[i].1) (.value i :: steps) entries[i].2 between =
            (.ok resolved[i].2, course.reached (i + 1)) := by
  rw [resolveEntries_eq_ok_iff_inTurn, inTurn_iff]
  simp only [Nat.zero_add]

/-! ## Collections -/

variable {value : Value}

theorem resolve_array_eq_ok_iff {typeName : Option String} {memo : Option ValueType}
    {elements : List RawValue} :
    r.resolve path steps (.array typeName memo elements) world = (.ok value, after) ↔
      ∃ type typed, r.elementType path steps typeName memo world = (.ok type, typed) ∧
        ∃ values, r.resolveElements path steps 0 elements typed = (.ok values, after) ∧
          .array type values = value := by
  rw [resolve]
  simp only [Work.bind_eq_ok_iff, Work.pure_eq_ok_iff]
  constructor
  · rintro ⟨type, typed, htype, values, _, hvalues, heq, rfl⟩
    exact ⟨type, typed, htype, values, hvalues, heq⟩
  · rintro ⟨type, typed, htype, values, hvalues, heq⟩
    exact ⟨type, typed, htype, values, after, hvalues, heq, rfl⟩

theorem resolve_list_eq_ok_iff {elements : List RawValue} :
    r.resolve path steps (.list elements) world = (.ok value, after) ↔
      ∃ values, r.resolveElements path steps 0 elements world = (.ok values, after) ∧
        .list values = value := by
  rw [resolve, Work.bind_pure_eq_ok_iff]

theorem resolve_set_eq_ok_iff {elements : List RawValue} :
    r.resolve path steps (.set elements) world = (.ok value, after) ↔
      ∃ values, r.resolveElements path steps 0 elements world = (.ok values, after) ∧
        .setOf values = value := by
  rw [resolve, Work.bind_pure_eq_ok_iff]

theorem resolve_map_eq_ok_iff {entries : List (RawValue × RawValue)} :
    r.resolve path steps (.map entries) world = (.ok value, after) ↔
      ∃ resolved, r.resolveEntries path steps 0 entries world = (.ok resolved, after) ∧
        .mapOf resolved = value := by
  rw [resolve, Work.bind_pure_eq_ok_iff]

end

/-! ## Values of raw values -/

/-- An element of a literal array of texts is evaluated if it is a text, and stays as it is otherwise. -/
inductive Evaluates : Value → World → Value → World → Prop
  | text {text : String} {world after : World} {value : Value}
      (h : r.provider.evaluate text world = (.ok value, after)) : Evaluates (.text text) world value after
  | other {item : Value} {world : World} (h : item.text? = none) : Evaluates item world item world

/-- What resolving a raw value gives, and which world it leaves. -/
inductive Resolves : ArgumentPath → List Step → RawValue → World → Value → World → Prop
  /-- What is no collection has the value that it is resolved to. -/
  | leaf {path : ArgumentPath} {steps : List Step} {raw : RawValue} {world after : World} {value : Value}
      (hleaf : raw.isLeaf = true) (htexts : raw.texts? = none)
      (h : r.resolve path steps raw world = (.ok value, after)) :
      Resolves path steps raw world value after
  /-- A literal array of texts none of which changes is returned as it is. -/
  | kept {path : ArgumentPath} {steps : List Step} {items : List Value} {world after : World}
      (course : Course world items.length after)
      (hitems : ∀ i (_ : i < items.length),
        r.Evaluates items[i] (course.reached i) items[i] (course.reached (i + 1))) :
      Resolves path steps (.literal (.array .text items)) world (.array .text items) after
  /-- If some of them changes, the array holds anything. -/
  | changed {path : ArgumentPath} {steps : List Step} {items values : List Value} {world after : World}
      (course : Course world items.length after) (hlength : values.length = items.length)
      (hitems : ∀ i (_ : i < items.length),
        r.Evaluates items[i] (course.reached i) values[i] (course.reached (i + 1)))
      (hchanged : values ≠ items) :
      Resolves path steps (.literal (.array .text items)) world (.array .any values) after
  /-- An array carries its element type, which is found first, and has the values of its elements. -/
  | array {path : ArgumentPath} {steps : List Step} {typeName : Option String} {memo : Option ValueType}
      {type : ValueType} {elements : List RawValue} {values : List Value} {world typed after : World}
      (htype : r.elementType path steps typeName memo world = (.ok type, typed))
      (course : Course typed elements.length after) (hlength : values.length = elements.length)
      (helements : ∀ i (_ : i < elements.length),
        Resolves (path.atIndex i) (.element i :: steps) elements[i] (course.reached i) values[i]
          (course.reached (i + 1))) :
      Resolves path steps (.array typeName memo elements) world (.array type values) after
  /-- A list has the values of its elements. -/
  | list {path : ArgumentPath} {steps : List Step} {elements : List RawValue} {values : List Value}
      {world after : World} (course : Course world elements.length after)
      (hlength : values.length = elements.length)
      (helements : ∀ i (_ : i < elements.length),
        Resolves (path.atIndex i) (.element i :: steps) elements[i] (course.reached i) values[i]
          (course.reached (i + 1))) :
      Resolves path steps (.list elements) world (.list values) after
  /-- A set has the values of its elements but for those that are the same as an earlier one. -/
  | set {path : ArgumentPath} {steps : List Step} {elements : List RawValue} {values : List Value}
      {world after : World} (course : Course world elements.length after)
      (hlength : values.length = elements.length)
      (helements : ∀ i (_ : i < elements.length),
        Resolves (path.atIndex i) (.element i :: steps) elements[i] (course.reached i) values[i]
          (course.reached (i + 1))) :
      Resolves path steps (.set elements) world (.set (Value.firsts values)) after
  /-- A map gathers the keys and values of its entries. Each key is resolved just before its value. -/
  | map {path : ArgumentPath} {steps : List Step} {entries : List (RawValue × RawValue)}
      {resolved bindings : List (Value × Value)} {world after : World}
      (course : Course world entries.length after) (between : ∀ i, i < entries.length → World)
      (hlength : resolved.length = entries.length)
      (hkeys : ∀ i (hi : i < entries.length),
        Resolves path (.key i :: steps) entries[i].1 (course.reached i) resolved[i].1 (between i hi))
      (hvalues : ∀ i (hi : i < entries.length),
        Resolves (path.atKey resolved[i].1) (.value i :: steps) entries[i].2 (between i hi) resolved[i].2
          (course.reached (i + 1)))
      (hgathers : Value.Gathers resolved bindings) :
      Resolves path steps (.map entries) world (.map bindings) after

section

variable {r} {path : ArgumentPath} {steps : List Step} {world after : World} {value : Value}

theorem evaluates_iff {item : Value} :
    r.Evaluates item world value after ↔ r.evaluateItem item world = (.ok value, after) := by
  cases item with
  | text text =>
    refine ⟨fun h => ?_, .text⟩
    cases h with
    | text h => exact h
    | other h => cases h
  | _ =>
    rw [evaluateItem, Work.pure_eq_ok_iff]
    · constructor
      · rintro (_ | _)
        exact ⟨rfl, rfl⟩
      · rintro ⟨rfl, rfl⟩
        exact .other rfl
    · exact nofun

/-- What an item is evaluated to is the item if it is the same. -/
theorem Evaluates.eq_of_same {item : Value} (h : r.Evaluates item world value after)
    (hsame : value.same item = true) : value = item := by
  cases h with
  | text _ =>
    cases Value.same_iff_alike.mp hsame
    rfl
  | other _ => rfl

theorem mapM_evaluateItem_eq_ok_iff {items values : List Value} :
    items.mapM r.evaluateItem world = (.ok values, after) ↔
      ∃ (course : Course world items.length after) (_ : values.length = items.length),
        ∀ i (_ : i < items.length),
          r.Evaluates items[i] (course.reached i) values[i] (course.reached (i + 1)) := by
  rw [Work.mapM_eq_ok_iff 0, inTurn_iff]
  simp only [evaluates_iff]

/-- The items of a literal array are the same as what they are evaluated to only if nothing changes. -/
theorem sameItems_iff_eq {items values : List Value} {course : Course world items.length after}
    (hlength : values.length = items.length)
    (hitems : ∀ i (_ : i < items.length),
      r.Evaluates items[i] (course.reached i) values[i] (course.reached (i + 1))) :
    Value.sameItems values items = true ↔ values = items := by
  rw [Value.sameItems_iff]
  constructor
  · intro hsame
    refine List.ext_getElem hlength fun i _ hi => (hitems i hi).eq_of_same ?_
    exact (List.forall₂_iff_get.mp hsame).2 i (by omega) hi
  · rintro rfl
    exact List.forall₂_same.mpr fun item _ => item.same_refl

theorem resolve_texts_eq_ok_iff {items : List Value} :
    r.resolve path steps (.literal (.array .text items)) world = (.ok value, after) ↔
      ∃ values, items.mapM r.evaluateItem world = (.ok values, after) ∧
        (if Value.sameItems values items then .array .text items else .array .any values) = value := by
  rw [resolve, resolveLiteral, Work.bind_pure_eq_ok_iff]

/-! ## Soundness and completeness -/

theorem Resolves.resolve_eq_ok {raw : RawValue} (h : r.Resolves path steps raw world value after) :
    r.resolve path steps raw world = (.ok value, after) := by
  induction h with
  | leaf _ _ h => exact h
  | kept course hitems =>
    refine resolve_texts_eq_ok_iff.mpr
      ⟨_, mapM_evaluateItem_eq_ok_iff.mpr ⟨course, rfl, hitems⟩, if_pos ?_⟩
    exact (sameItems_iff_eq rfl hitems).mpr rfl
  | changed course hlength hitems hchanged =>
    refine resolve_texts_eq_ok_iff.mpr
      ⟨_, mapM_evaluateItem_eq_ok_iff.mpr ⟨course, hlength, hitems⟩, if_neg ?_⟩
    exact fun hsame => hchanged ((sameItems_iff_eq hlength hitems).mp hsame)
  | array htype course hlength _ ih =>
    exact resolve_array_eq_ok_iff.mpr
      ⟨_, _, htype, _, resolveElements_eq_ok_iff.mpr ⟨course, hlength, ih⟩, rfl⟩
  | list course hlength _ ih =>
    exact resolve_list_eq_ok_iff.mpr
      ⟨_, resolveElements_eq_ok_iff.mpr ⟨course, hlength, ih⟩, rfl⟩
  | set course hlength _ ih =>
    exact resolve_set_eq_ok_iff.mpr
      ⟨_, resolveElements_eq_ok_iff.mpr ⟨course, hlength, ih⟩, Value.setOf_eq _⟩
  | map course between hlength _ _ hgathers ihkey ihvalue =>
    exact resolve_map_eq_ok_iff.mpr
      ⟨_, resolveEntries_eq_ok_iff.mpr
        ⟨course, hlength, fun i hi => ⟨between i hi, ihkey i hi, ihvalue i hi⟩⟩,
        Value.mapOf_eq_map_iff.mpr hgathers⟩

theorem resolves_of_resolve_eq_ok {raw : RawValue}
    (h : r.resolve path steps raw world = (.ok value, after)) :
    r.Resolves path steps raw world value after := by
  induction raw using RawValue.induction_parts generalizing path steps world value after with
  | step raw ih =>
    cases raw with
    | array typeName memo elements =>
      obtain ⟨type, typed, htype, values, hvalues, rfl⟩ := resolve_array_eq_ok_iff.mp h
      obtain ⟨course, hlength, helements⟩ := resolveElements_eq_ok_iff.mp hvalues
      exact .array htype course hlength fun i hi => ih _ (List.getElem_mem hi) (helements i hi)
    | list elements =>
      obtain ⟨values, hvalues, rfl⟩ := resolve_list_eq_ok_iff.mp h
      obtain ⟨course, hlength, helements⟩ := resolveElements_eq_ok_iff.mp hvalues
      exact .list course hlength fun i hi => ih _ (List.getElem_mem hi) (helements i hi)
    | set elements =>
      obtain ⟨values, hvalues, rfl⟩ := resolve_set_eq_ok_iff.mp h
      obtain ⟨course, hlength, helements⟩ := resolveElements_eq_ok_iff.mp hvalues
      rw [Value.setOf_eq]
      exact .set course hlength fun i hi => ih _ (List.getElem_mem hi) (helements i hi)
    | map entries =>
      obtain ⟨resolved, hresolved, rfl⟩ := resolve_map_eq_ok_iff.mp h
      obtain ⟨course, hlength, hentries⟩ := resolveEntries_eq_ok_iff.mp hresolved
      choose between hkeys hvalues using hentries
      exact .map course between hlength
        (fun i hi => ih _ (RawValue.key_mem_parts (List.getElem_mem hi)) (hkeys i hi))
        (fun i hi => ih _ (RawValue.value_mem_parts (List.getElem_mem hi)) (hvalues i hi))
        (Value.mapOf_eq_map_iff.mp rfl)
    | literal literal =>
      rcases htexts : (RawValue.literal literal).texts? with _ | items
      · exact .leaf rfl htexts h
      · rw [RawValue.eq_of_texts? htexts] at h ⊢
        obtain ⟨values, hvalues, rfl⟩ := resolve_texts_eq_ok_iff.mp h
        obtain ⟨course, hlength, hitems⟩ := mapM_evaluateItem_eq_ok_iff.mp hvalues
        -- the literal itself is given back if no text of it changes
        have hiff := sameItems_iff_eq hlength hitems
        by_cases hsame : values = items
        · rw [if_pos (hiff.mpr hsame)]
          subst hsame
          exact .kept course hitems
        · rw [if_neg fun heq => hsame (hiff.mp heq)]
          exact .changed course hlength hitems hsame
    | _ => exact .leaf rfl rfl h

end

/-- **Collections are resolved element by element**, whatever beans are made on the way: a raw value is
resolved to what its elements make, each of them resolved in the world that those before it have left. In
a map a proper key is taken for the one that is the same, so each key has the value of the last entry with
that key. -/
theorem resolves_elementwise :
    (∀ path steps raw world value after,
      r.resolve path steps raw world = (.ok value, after) ↔
        r.Resolves path steps raw world value after) ∧
    ∀ entries bindings, Value.Gathers entries bindings → ∀ key : Value, key.isProper = true →
      ∀ i (_ : i < bindings.length),
        Value.placeOf (bindings.map Prod.fst) key = some i ↔ key.same bindings[i].1 = true :=
  ⟨fun _ _ _ _ _ _ => ⟨resolves_of_resolve_eq_ok, Resolves.resolve_eq_ok⟩,
    fun _ _ hgathers _ hproper _ hi => hgathers.placeOf_eq_some_iff hproper hi⟩

end Resolution

end Injector
