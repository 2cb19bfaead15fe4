import Injector.Proofs.Settings.BuiltinLibrary
import Injector.Settings.Document

/-!
# Written settings read back

What is written of settings reads back as the same settings, if they can be used; if not, reading tells
why they cannot. Nothing is assumed of the marks, the separator and the properties.

Of the library that writes and reads the document it is assumed that it keeps to a standard. So what it
reads is the table that was written, but in some order (`Toml.Standard.unambiguous`). The rest is a matter of
settings alone: their fields are a plain table, for which a document can be written at all
(`plain_fields`), and a table that says what the settings are (`Describes`) is read as these settings,
whatever its order is, and with defaults left out (`ofFields_of_describes`).
-/

namespace Injector

/-! ## Properties in any order -/

namespace PropertyTable

theorem ext {first second : PropertyTable} (h : first.entries = second.entries) : first = second := by
  cases first
  cases second
  cases h
  rfl

/-- The names are all different, as they are sorted. -/
theorem nodup_names (table : PropertyTable) : (table.entries.map Prod.fst).Nodup :=
  List.pairwise_map.mpr (table.sorted.imp fun hlt heq => by
    rw [heq] at hlt
    exact String.lt_irrefl _ hlt)

/-- A new name is put somewhere among the others. -/
theorem insertSorted_perm {name : String} {entries : List (String × String)}
    (h : name ∉ entries.map Prod.fst) (text : String) :
    (insertSorted name text entries).Perm ((name, text) :: entries) := by
  induction entries with
  | nil => exact .refl _
  | cons entry rest ih =>
    obtain ⟨key, old⟩ := entry
    rw [List.map_cons, List.mem_cons, not_or] at h
    rw [insertSorted, if_neg h.1]
    split
    · exact .refl _
    · exact ((ih h.2).cons _).trans (.swap _ _ _)

theorem foldl_insert_perm (bindings : List (String × String)) (table : PropertyTable)
    (h : ((table.entries ++ bindings).map Prod.fst).Nodup) :
    (bindings.foldl (fun table binding => table.insert binding.1 binding.2) table).entries.Perm
      (table.entries ++ bindings) := by
  induction bindings generalizing table with
  | nil => simp
  | cons binding rest ih =>
    obtain ⟨name, text⟩ := binding
    have hinserted : (table.insert name text).entries.Perm ((name, text) :: table.entries) :=
      insertSorted_perm (Toml.not_mem_of_distinct h) text
    have hmoved : ((table.insert name text).entries ++ rest).Perm (table.entries ++ (name, text) :: rest) :=
      (hinserted.append_right rest).trans List.perm_middle.symm
    exact (ih _ ((hmoved.map Prod.fst).nodup_iff.mpr h)).trans hmoved

/-- **A table is made again of its own entries, in whatever order they come.** -/
theorem ofList_of_perm {table : PropertyTable} {bindings : List (String × String)}
    (h : bindings.Perm table.entries) : ofList bindings = table := by
  have hnodup : (bindings.map Prod.fst).Nodup := (h.map Prod.fst).nodup_iff.mpr table.nodup_names
  have hperm : (ofList bindings).entries.Perm table.entries :=
    (foldl_insert_perm bindings .empty hnodup).trans h
  refine ext (hperm.eq_of_pairwise (fun first second _ _ hlt hgt => ?_) (ofList bindings).sorted
    table.sorted)
  exact absurd hgt (String.lt_asymm hlt)

end PropertyTable

/-! ## Tables that describe settings -/

namespace Settings

open Toml

variable {settings : Settings} {library : Library} {standard : Standard}

/-- The fields of settings can be written. -/
theorem plain_fields (settings : Settings) : settings.fields.Plain where
  distinct := by
    show List.Nodup ["allow_definition_overriding", "placeholder_prefix", "placeholder_suffix",
      "value_separator", "ignore_unresolvable_placeholders", "properties"]
    decide
  known field hmem := by
    unfold fields at hmem
    simp only [List.mem_cons, List.not_mem_nil, or_false] at hmem
    rcases hmem with rfl | rfl | rfl | rfl | rfl | rfl <;> exact nofun
  inside key entries hmem := by
    unfold fields at hmem
    simp only [List.mem_cons, List.not_mem_nil, or_false, Prod.mk.injEq, reduceCtorEq, and_false,
      false_or, Item.texts.injEq] at hmem
    exact hmem.2 ▸ settings.properties.nodup_names

/-- A key has the item that is meant, or none if that is the one meant without it. -/
def Gives (fields : Fields) (key : String) (item default : Item) : Prop :=
  fields.lookup key = some item ∨ fields.lookup key = none ∧ item = default

/-- A table says what the settings are. What is as it is by default need not be said, and it does not
matter in which order anything is said. -/
structure Describes (fields : Fields) (settings : Settings) : Prop where
  allowOverriding : Gives fields "allow_definition_overriding" (.boolean settings.allowOverriding)
    (.boolean ({} : Settings).allowOverriding)
  opening : Gives fields "placeholder_prefix" (.text settings.opening) (.text ({} : Settings).opening)
  closing : Gives fields "placeholder_suffix" (.text settings.closing) (.text ({} : Settings).closing)
  separator : Gives fields "value_separator" (.text settings.separator)
    (.text ({} : Settings).separator)
  lenient : Gives fields "ignore_unresolvable_placeholders" (.boolean settings.lenient)
    (.boolean ({} : Settings).lenient)
  properties : (∃ entries, fields.lookup "properties" = some (.texts entries) ∧
      entries.Perm settings.properties.entries) ∨
    fields.lookup "properties" = none ∧ settings.properties = .empty

/-- The fields of settings say what the settings are. -/
theorem describes_fields (settings : Settings) : Describes settings.fields settings where
  allowOverriding := .inl rfl
  opening := .inl rfl
  closing := .inl rfl
  separator := .inl rfl
  lenient := .inl rfl
  properties := .inl ⟨_, rfl, .refl _⟩

section

variable {first second : Fields} (hsame : first.Same second)

include hsame

theorem Gives.of_same {key : String} {item default : Item} (h : Gives second key item default)
    (hitem : ∀ entries, item ≠ .texts entries) : Gives first key item default := by
  have hkey := hsame key
  unfold Gives at h ⊢
  generalize first.lookup key = a, second.lookup key = b at hkey h
  cases hkey with
  | none => exact h
  | some hsame =>
    cases hsame with
    | refl => exact h
    | texts hperm =>
      rcases h with h | ⟨h, -⟩
      · exact absurd (Option.some.inj h).symm (hitem _)
      · cases h

/-- What a table says, the same table says in any other order. -/
theorem Describes.of_same (h : Describes second settings) : Describes first settings where
  allowOverriding := h.allowOverriding.of_same hsame nofun
  opening := h.opening.of_same hsame nofun
  closing := h.closing.of_same hsame nofun
  separator := h.separator.of_same hsame nofun
  lenient := h.lenient.of_same hsame nofun
  properties := by
    have hkey := hsame "properties"
    have h := h.properties
    generalize first.lookup "properties" = a, second.lookup "properties" = b at hkey h
    cases hkey with
    | none => exact h
    | some hsame =>
      cases hsame with
      | refl => exact h
      | texts hperm =>
        rcases h with ⟨entries, h, hentries⟩ | ⟨h, -⟩
        · cases h
          exact .inl ⟨_, rfl, hperm.trans hentries⟩
        · cases h

end

section

variable {fields : Fields}

theorem booleanAt_of_gives {key : String} {value default : Bool}
    (h : Gives fields key (.boolean value) (.boolean default)) :
    booleanAt key default fields = .ok value := by
  unfold booleanAt
  rcases h with hgiven | ⟨habsent, hdefault⟩
  · rw [hgiven]
  · rw [habsent, Item.boolean.inj hdefault]

theorem textAt_of_gives {key value default : String}
    (h : Gives fields key (.text value) (.text default)) :
    textAt key default fields = .ok value := by
  unfold textAt
  rcases h with hgiven | ⟨habsent, hdefault⟩
  · rw [hgiven]
  · rw [habsent, Item.text.inj hdefault]

/-- **Settings are read in every table that says what they are.** -/
theorem ofFields_of_describes (h : Describes fields settings) : ofFields fields = .ok settings := by
  have hproperties : propertiesAt "properties" fields = .ok settings.properties := by
    unfold propertiesAt
    rcases h.properties with ⟨entries, hlookup, hperm⟩ | ⟨habsent, hempty⟩
    · rw [hlookup]
      dsimp only
      rw [PropertyTable.ofList_of_perm hperm]
    · rw [habsent, hempty]
  unfold ofFields
  dsimp only
  rw [booleanAt_of_gives h.allowOverriding, textAt_of_gives h.opening, textAt_of_gives h.closing,
    textAt_of_gives h.separator, booleanAt_of_gives h.lenient, hproperties]
  rfl

theorem ofToml_of_describes {text : String} (hread : library.read text = some fields)
    (h : Describes fields settings) : ofToml library text = settings.validated := by
  unfold ofToml
  rw [hread]
  dsimp only
  rw [ofFields_of_describes h]
  rfl

end

/-! ## Documents -/

/-- Settings are read in every document that says their fields. -/
theorem ofToml_of_says (hreads : library.Reads standard) {text : String}
    (h : standard.Says text settings.fields) : ofToml library text = settings.validated := by
  obtain ⟨read, hread, hsays⟩ := hreads text settings.fields settings.plain_fields h
  exact ofToml_of_describes hread
    (settings.describes_fields.of_same (standard.unambiguous hsays h))

/-- **What is written of settings reads back as the same settings, if they can be used**, with every library
that keeps to a standard. Nothing is assumed of the marks, the separator and the properties. Settings with
an empty mark are refused in the same way as without writing and reading them. The same goes for any other
document in which a table is read that says what the settings are. -/
theorem ofToml_toToml (hwrites : library.Writes standard) (hreads : library.Reads standard)
    (settings : Settings) :
    (settings.toToml library >>= ofToml library) = settings.validated ∧
      (settings.opening ≠ "" → settings.closing ≠ "" →
        (settings.toToml library >>= ofToml library) = .ok settings) ∧
      (settings.opening = "" → (settings.toToml library >>= ofToml library) = .error .emptyOpening) ∧
      (settings.opening ≠ "" → settings.closing = "" →
        (settings.toToml library >>= ofToml library) = .error .emptyClosing) ∧
      (∃ text, settings.toToml library = .ok text ∧ standard.Says text settings.fields) ∧
      ∀ text fields, library.read text = some fields → Describes fields settings →
        ofToml library text = settings.validated := by
  obtain ⟨text, hwritten, hsays⟩ := hwrites settings.fields settings.plain_fields
  have htext : settings.toToml library = .ok text := by
    unfold toToml
    rw [hwritten]
  have hread : (settings.toToml library >>= ofToml library) = settings.validated := by
    rw [htext]
    exact ofToml_of_says hreads hsays
  rw [hread]
  refine ⟨rfl, fun hopening hclosing => ?_, fun hopening => ?_, fun hopening hclosing => ?_,
    ⟨text, htext, hsays⟩, fun _ _ => ofToml_of_describes⟩
  · simp [validated, hopening, hclosing]
  · simp [validated, hopening]
  · simp [validated, hopening, hclosing]

/-- Settings in which no switch is as it is by default, with properties whose names take quotes. -/
def regional : Settings where
  allowOverriding := false
  opening := "%["
  closing := "]"
  separator := ""
  lenient := true
  properties := PropertyTable.ofList [("region", "eu-west"), ("db.url", "jdbc:h2:mem # %[region]"), ("", "ü")]

/-- Written by the built-in library, they read back, and are refused without an opening mark. -/
theorem ofToml_toToml_regional :
    Library.builtin.write regional.fields =
        some ("allow_definition_overriding = false\nplaceholder_prefix = \"%[\"\n" ++
          "placeholder_suffix = \"]\"\nvalue_separator = \"\"\n" ++
          "ignore_unresolvable_placeholders = true\n\n[properties]\n" ++
          "\"\" = \"ü\"\n\"db.url\" = \"jdbc:h2:mem # %[region]\"\nregion = \"eu-west\"\n") ∧
      Library.builtin.Writes builtinStandard ∧ Library.builtin.Reads builtinStandard ∧
      (regional.toToml Library.builtin >>= ofToml Library.builtin) = .ok regional ∧
      (({ regional with opening := "" } : Settings).toToml Library.builtin >>= ofToml Library.builtin) =
        .error .emptyOpening :=
  ⟨by decide +kernel, builtin_writes, builtin_reads,
    (ofToml_toToml builtin_writes builtin_reads regional).2.1 (by decide) (by decide),
    (ofToml_toToml builtin_writes builtin_reads { regional with opening := "" }).2.2.1 rfl⟩

end Settings

end Injector
