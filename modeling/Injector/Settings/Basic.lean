import Injector.Table

/-!
# Settings

What a container can be told about its behaviour: whether names may be registered again, how
placeholders are written, and the properties they stand for.

The properties are sorted by name, in the order of code points. Sortedness is part of the type, so
two tables that bind the same names to the same texts are equal.
-/

namespace Injector

/-! ## Property tables -/

/-- Texts by name, sorted by name. -/
structure PropertyTable where
  entries : List (String × String) := []
  sorted : entries.Pairwise (fun first second => first.1 < second.1) := by exact List.Pairwise.nil

namespace PropertyTable

/-- The table without bindings. -/
def empty : PropertyTable := {}

/-- Binds a name at its place in a sorted list, instead of what it was bound to. -/
def insertSorted (name text : String) : List (String × String) → List (String × String)
  | [] => [(name, text)]
  | (key, old) :: rest =>
    if name < key then (name, text) :: (key, old) :: rest
    else if name = key then (name, text) :: rest
    else (key, old) :: insertSorted name text rest

/-- A name is found with the text it was last bound to. -/
theorem lookup_insertSorted (name other text : String) (entries : List (String × String)) :
    (insertSorted name text entries).lookup other =
      if other = name then some text else entries.lookup other := by
  induction entries with
  | nil => simp [insertSorted]
  | cons head rest ih =>
    obtain ⟨key, old⟩ := head
    simp only [insertSorted]
    split
    · exact Bindings.lookup_cons name other text _
    · split <;> simp only [Bindings.lookup_cons] <;> grind

theorem mem_insertSorted {name text : String} {entries : List (String × String)}
    {entry : String × String} (h : entry ∈ insertSorted name text entries) :
    entry = (name, text) ∨ entry ∈ entries := by
  induction entries with
  | nil => simpa [insertSorted] using h
  | cons head rest ih =>
    obtain ⟨key, old⟩ := head
    simp only [insertSorted] at h
    split at h
    · simpa using h
    · split at h
      · simp only [List.mem_cons] at h ⊢
        rcases h with h | h
        · exact .inl h
        · exact .inr (.inr h)
      · simp only [List.mem_cons] at h ⊢
        rcases h with h | h
        · exact .inr (.inl h)
        · rcases ih h with h | h
          · exact .inl h
          · exact .inr (.inr h)

theorem sorted_insertSorted {name text : String} {entries : List (String × String)}
    (h : entries.Pairwise (fun first second => first.1 < second.1)) :
    (insertSorted name text entries).Pairwise (fun first second => first.1 < second.1) := by
  induction entries with
  | nil => simp [insertSorted]
  | cons head rest ih =>
    obtain ⟨key, old⟩ := head
    obtain ⟨hhead, hrest⟩ := List.pairwise_cons.1 h
    simp only [insertSorted]
    split
    · rename_i hlt
      refine List.pairwise_cons.2 ⟨?_, h⟩
      intro entry hentry
      rcases List.mem_cons.1 hentry with rfl | hentry
      · exact hlt
      · exact String.lt_trans hlt (hhead entry hentry)
    · split
      · rename_i heq
        subst heq
        exact List.pairwise_cons.2 ⟨hhead, hrest⟩
      · rename_i hnlt hne
        refine List.pairwise_cons.2 ⟨?_, ih hrest⟩
        intro entry hentry
        rcases mem_insertSorted hentry with rfl | hentry
        · rcases Decidable.em (key < name) with hlt | hnlt'
          · exact hlt
          · exact absurd (String.le_antisymm (String.not_lt.1 hnlt') (String.not_lt.1 hnlt)) hne
        · exact hhead entry hentry

/-- The text that a name is bound to. -/
def find? (table : PropertyTable) (name : String) : Option String :=
  table.entries.lookup name

/-- Binds a name, instead of what it was bound to. -/
def insert (table : PropertyTable) (name text : String) : PropertyTable where
  entries := insertSorted name text table.entries
  sorted := sorted_insertSorted table.sorted

theorem find?_insert (table : PropertyTable) (name other text : String) :
    (table.insert name text).find? other = if other = name then some text else table.find? other :=
  lookup_insertSorted name other text table.entries

/-- What has a value is one of finitely many names. -/
theorem mem_names {table : PropertyTable} {name : String} (h : (table.find? name).isSome) :
    name ∈ table.entries.map Prod.fst := by
  obtain ⟨entry, hentry, heq⟩ := List.lookup_isSome_iff.1 h
  exact List.mem_map.2 ⟨entry, hentry, (eq_of_beq heq).symm⟩

/-- Binds the pairs one after the other. -/
def ofList (bindings : List (String × String)) : PropertyTable :=
  bindings.foldl (fun table binding => table.insert binding.1 binding.2) empty

instance : Inhabited PropertyTable := ⟨empty⟩

instance : DecidableEq PropertyTable := fun first second =>
  if h : first.entries = second.entries then
    .isTrue (by cases first; cases second; simp_all)
  else .isFalse fun e => h (congrArg entries e)

end PropertyTable

/-! ## Settings -/

/-- The switches of a container. -/
structure Settings where
  /-- Whether registering a name again replaces what it was registered for. -/
  allowOverriding : Bool := true
  /-- What a placeholder begins with. -/
  opening : String := "$\x7b"
  /-- What a placeholder ends with. -/
  closing : String := "\x7d"
  /-- What stands between a placeholder's key and its default; nothing if there are no defaults. -/
  separator : String := ":"
  /-- Whether a placeholder without a value stays as it is. -/
  lenient : Bool := false
  /-- The values of placeholders. -/
  properties : PropertyTable := .empty
  deriving DecidableEq, Inhabited

/-- Why settings cannot be used. -/
inductive SettingsFault
  /-- They could not be got at. -/
  | unreadable
  /-- Their text is no settings document, or there is none that says them. -/
  | malformed
  | emptyOpening
  | emptyClosing
  deriving DecidableEq

/-- The wording of a fault. What a text gets wrong is not told. -/
def SettingsFault.message : SettingsFault → String
  | unreadable => "IO error"
  | malformed => "Parse error"
  | emptyOpening => "Validation error: Placeholder prefix must not be empty"
  | emptyClosing => "Validation error: Placeholder suffix must not be empty"

namespace Settings

/-- The settings, if both marks of placeholders have characters. -/
def validated (settings : Settings) : Except SettingsFault Settings :=
  if settings.opening.isEmpty then .error .emptyOpening
  else if settings.closing.isEmpty then .error .emptyClosing
  else .ok settings

/-- Gives a placeholder a value. -/
def withProperty (settings : Settings) (name text : String) : Settings :=
  { settings with properties := settings.properties.insert name text }

end Settings

end Injector
