/-!
# Tables and name sets

A `Table` binds names to values and remembers the order in which the names were first bound: binding
a name again keeps its place and replaces its value. A `NameSet` is the same without values.

That no name occurs twice is part of both types, so looking up, replacing and erasing never have a
choice to make. The work is done on plain lists of bindings (`Bindings`), where a definition's
properties, which are not a `Table`, use it too.
-/

namespace Injector

/-! ## Bindings: the lists underneath -/

namespace Bindings

variable {α : Type}

/-- Binds `name`: in place if it is bound already, else at the end. -/
def put (name : String) (value : α) : List (String × α) → List (String × α)
  | [] => [(name, value)]
  | (key, old) :: rest =>
    if key = name then (key, value) :: rest else (key, old) :: put name value rest

/-- Drops the bindings of `name`. -/
def drop (name : String) (bindings : List (String × α)) : List (String × α) :=
  bindings.filter fun binding => binding.1 != name

/-- Changes the value bound to `name`, if there is one. -/
def adjust (name : String) (change : α → α) : List (String × α) → List (String × α)
  | [] => []
  | (key, old) :: rest =>
    if key = name then (key, change old) :: rest else (key, old) :: adjust name change rest

/-- The bound names, in order. -/
abbrev keys (bindings : List (String × α)) : List String :=
  bindings.map Prod.fst

/-- Looking up in a list reads its first binding first. -/
theorem lookup_cons (key name : String) (value : α) (rest : List (String × α)) :
    List.lookup name ((key, value) :: rest) =
      if name = key then some value else List.lookup name rest := by
  rw [List.lookup_cons]
  by_cases h : name = key
  · rw [if_pos h, h, beq_self_eq_true]
  · have hb : (name == key) = false := by simpa using h
    rw [if_neg h, hb]

theorem lookup_eq_none {name : String} {bindings : List (String × α)} (h : name ∉ keys bindings) :
    bindings.lookup name = none := by
  rw [List.lookup_eq_none_iff]
  intro binding hmem
  exact bne_iff_ne.mpr fun heq => h (heq ▸ List.mem_map_of_mem hmem)

/-- Of names that are bound once, each binding is found. -/
theorem lookup_of_mem {name : String} {value : α} :
    ∀ {bindings : List (String × α)}, (keys bindings).Nodup → (name, value) ∈ bindings →
      bindings.lookup name = some value
  | (key, first) :: rest, hnodup, hmem => by
    obtain ⟨hnew, hnodup⟩ := List.nodup_cons.mp hnodup
    rw [lookup_cons]
    rcases List.mem_cons.mp hmem with heq | hrest
    · cases heq
      rw [if_pos rfl]
    · have hname : name ≠ key := by
        rintro rfl
        exact hnew (List.mem_map.mpr ⟨_, hrest, rfl⟩)
      rw [if_neg hname]
      exact lookup_of_mem hnodup hrest

theorem mem_of_lookup {name : String} {value : α} {bindings : List (String × α)}
    (h : bindings.lookup name = some value) : (name, value) ∈ bindings := by
  obtain ⟨first, rest, hbindings, -⟩ := List.lookup_eq_some_iff.mp h
  rw [hbindings]
  exact List.mem_append_right _ List.mem_cons_self

/-- Of names that are bound once, the order of the bindings does not matter. -/
theorem lookup_of_perm {first second : List (String × α)} (h : first.Perm second)
    (hnodup : (keys first).Nodup) (name : String) : first.lookup name = second.lookup name := by
  have hnodup' : (keys second).Nodup := (h.map Prod.fst).nodup_iff.mp hnodup
  refine Option.ext fun value => ⟨fun hfirst => ?_, fun hsecond => ?_⟩
  · exact lookup_of_mem hnodup' (h.mem_iff.mp (mem_of_lookup hfirst))
  · exact lookup_of_mem hnodup (h.mem_iff.mpr (mem_of_lookup hsecond))

theorem mem_put {name : String} {value : α} {binding : String × α} {bindings : List (String × α)}
    (h : binding ∈ put name value bindings) : binding = (name, value) ∨ binding ∈ bindings := by
  induction bindings with
  | nil => exact Or.inl (List.mem_singleton.mp h)
  | cons first rest ih =>
    obtain ⟨key, old⟩ := first
    rw [put] at h
    split at h
    · next hkey =>
      subst hkey
      exact (List.mem_cons.mp h).imp_right (List.mem_cons_of_mem _)
    · rcases List.mem_cons.mp h with rfl | hrest
      · exact Or.inr List.mem_cons_self
      · exact (ih hrest).imp_right (List.mem_cons_of_mem _)

theorem put_of_not_mem {name : String} {value : α} {bindings : List (String × α)}
    (h : name ∉ keys bindings) : put name value bindings = bindings ++ [(name, value)] := by
  induction bindings with
  | nil => rfl
  | cons first rest ih =>
    obtain ⟨key, old⟩ := first
    rw [keys, List.map_cons, List.mem_cons, not_or] at h
    rw [put, if_neg fun he => h.1 he.symm, ih h.2]
    rfl

/-- A new name goes to the end; a bound one stays where it is. -/
theorem keys_put (name : String) (value : α) (bindings : List (String × α)) :
    keys (put name value bindings) =
      if name ∈ keys bindings then keys bindings else keys bindings ++ [name] := by
  induction bindings with
  | nil => simp [put]
  | cons binding rest ih =>
    obtain ⟨key, old⟩ := binding
    by_cases h : key = name
    · simp [put, h]
    · have h' : ¬name = key := fun e => h e.symm
      simp only [put, if_neg h, List.map_cons, List.mem_cons, h', false_or]
      simp only [keys] at ih
      rw [ih]
      split <;> simp

theorem nodup_keys_put {name : String} {value : α} {bindings : List (String × α)}
    (h : (keys bindings).Nodup) : (keys (put name value bindings)).Nodup := by
  rw [keys_put]
  split
  · exact h
  · rename_i hn
    exact List.nodup_append.2 ⟨h, by simp, by
      intro a ha b hb e
      simp only [List.mem_singleton] at hb
      exact hn (hb ▸ e ▸ ha)⟩

/-- A name is found with the value it was last bound to. -/
theorem lookup_put (name other : String) (value : α) (bindings : List (String × α)) :
    (put name value bindings).lookup other =
      if other = name then some value else bindings.lookup other := by
  induction bindings with
  | nil => simp [put, lookup_cons]
  | cons binding rest ih =>
    obtain ⟨key, old⟩ := binding
    simp only [put]
    split <;> simp only [lookup_cons] <;> grind

/-- Binding a name to what it is bound to already changes nothing. -/
theorem put_of_lookup {name : String} {value : α} {bindings : List (String × α)}
    (h : bindings.lookup name = some value) : put name value bindings = bindings := by
  induction bindings with
  | nil => cases h
  | cons binding rest ih =>
    obtain ⟨key, old⟩ := binding
    rw [lookup_cons] at h
    by_cases he : name = key
    · rw [if_pos he] at h
      cases h
      rw [put, if_pos he.symm]
    · rw [if_neg he] at h
      rw [put, if_neg (Ne.symm he), ih h]

theorem keys_drop (name : String) (bindings : List (String × α)) :
    keys (drop name bindings) = (keys bindings).filter (· != name) := by
  simp only [keys, drop, List.filter_map]
  rfl

theorem nodup_keys_drop {name : String} {bindings : List (String × α)}
    (h : (keys bindings).Nodup) : (keys (drop name bindings)).Nodup := by
  rw [keys_drop]
  exact List.Nodup.sublist List.filter_sublist h

theorem lookup_drop (name other : String) (bindings : List (String × α)) :
    (drop name bindings).lookup other =
      if other = name then none else bindings.lookup other := by
  induction bindings with
  | nil => simp [drop]
  | cons binding rest ih =>
    obtain ⟨key, old⟩ := binding
    simp only [drop, List.filter_cons] at ih ⊢
    split <;> simp only [lookup_cons] <;> grind

/-- Dropping a name that is not bound changes nothing. -/
theorem drop_of_lookup {name : String} {bindings : List (String × α)}
    (h : bindings.lookup name = none) : drop name bindings = bindings := by
  induction bindings with
  | nil => rfl
  | cons binding rest ih =>
    obtain ⟨key, old⟩ := binding
    rw [lookup_cons] at h
    by_cases he : name = key
    · rw [if_pos he] at h
      cases h
    · rw [if_neg he] at h
      have hkeep : (key != name) = true := by simpa using Ne.symm he
      rw [drop, List.filter_cons, if_pos hkeep]
      exact congrArg _ (ih h)

theorem keys_adjust (name : String) (change : α → α) (bindings : List (String × α)) :
    keys (adjust name change bindings) = keys bindings := by
  induction bindings with
  | nil => rfl
  | cons binding rest ih =>
    obtain ⟨key, old⟩ := binding
    by_cases h : key = name
    · simp [adjust, h]
    · simpa [adjust, h] using ih

theorem lookup_adjust (name other : String) (change : α → α) (bindings : List (String × α)) :
    (adjust name change bindings).lookup other =
      if other = name then (bindings.lookup other).map change else bindings.lookup other := by
  induction bindings with
  | nil => simp [adjust]
  | cons binding rest ih =>
    obtain ⟨key, old⟩ := binding
    simp only [adjust]
    split <;> simp only [lookup_cons] <;> grind

end Bindings

/-! ## Tables -/

/-- Names bound to values, in the order in which the names were first bound. -/
structure Table (α : Type) where
  entries : List (String × α) := []
  nodup_keys : (entries.map Prod.fst).Nodup := by exact List.Pairwise.nil

namespace Table

variable {α : Type}

/-- The table without bindings. -/
def empty : Table α := {}

instance : Inhabited (Table α) := ⟨empty⟩

/-- The bound names, in order. -/
def keys (table : Table α) : List String :=
  table.entries.map Prod.fst

/-- How many names are bound. -/
def size (table : Table α) : Nat :=
  table.entries.length

/-- The value bound to `name`. -/
def find? (table : Table α) (name : String) : Option α :=
  table.entries.lookup name

/-- Whether `name` is bound. -/
def contains (table : Table α) (name : String) : Bool :=
  (table.find? name).isSome

/-- Binds `name`, in place if it is bound already, else last. -/
def insert (table : Table α) (name : String) (value : α) : Table α where
  entries := Bindings.put name value table.entries
  nodup_keys := Bindings.nodup_keys_put table.nodup_keys

/-- Binds `name` unless it is bound already. -/
def insertNew (table : Table α) (name : String) (value : α) : Table α :=
  if table.contains name then table else table.insert name value

/-- Drops the binding of `name`; the others keep their order. -/
def erase (table : Table α) (name : String) : Table α where
  entries := Bindings.drop name table.entries
  nodup_keys := Bindings.nodup_keys_drop table.nodup_keys

/-- Changes the value bound to `name`, if there is one. -/
def adjust (table : Table α) (name : String) (change : α → α) : Table α where
  entries := Bindings.adjust name change table.entries
  nodup_keys := by
    have h := Bindings.keys_adjust name change table.entries
    simp only [Bindings.keys] at h
    rw [h]
    exact table.nodup_keys

/-- Binds the pairs one after the other. -/
def ofList (bindings : List (String × α)) : Table α :=
  bindings.foldl (fun table binding => table.insert binding.1 binding.2) empty

@[simp] theorem find?_empty (name : String) : (empty : Table α).find? name = none := rfl

@[simp] theorem keys_empty : (empty : Table α).keys = [] := rfl

theorem find?_insert (table : Table α) (name other : String) (value : α) :
    (table.insert name value).find? other = if other = name then some value else table.find? other :=
  Bindings.lookup_put name other value table.entries

theorem keys_insert (table : Table α) (name : String) (value : α) :
    (table.insert name value).keys =
      if name ∈ table.keys then table.keys else table.keys ++ [name] :=
  Bindings.keys_put name value table.entries

/-- Binding a name to what it is bound to already changes nothing. -/
theorem insert_of_find? {table : Table α} {name : String} {value : α}
    (h : table.find? name = some value) : table.insert name value = table := by
  obtain ⟨entries, hnodup⟩ := table
  exact (Table.mk.injEq _ _ _ _).mpr (Bindings.put_of_lookup h)

theorem find?_insertNew (table : Table α) (name other : String) (value : α) :
    (table.insertNew name value).find? other =
      if other = name then some ((table.find? name).getD value) else table.find? other := by
  unfold insertNew contains
  cases h : table.find? name with
  | none => simp [find?_insert]
  | some bound =>
    by_cases e : other = name
    · simp [e, h]
    · simp [e]

theorem find?_erase (table : Table α) (name other : String) :
    (table.erase name).find? other = if other = name then none else table.find? other :=
  Bindings.lookup_drop name other table.entries

/-- Dropping a name that is not bound changes nothing. -/
theorem erase_of_find? {table : Table α} {name : String} (h : table.find? name = none) :
    table.erase name = table := by
  obtain ⟨entries, hnodup⟩ := table
  exact (Table.mk.injEq _ _ _ _).mpr (Bindings.drop_of_lookup h)

theorem keys_erase (table : Table α) (name : String) :
    (table.erase name).keys = table.keys.filter (· != name) :=
  Bindings.keys_drop name table.entries

theorem find?_adjust (table : Table α) (name other : String) (change : α → α) :
    (table.adjust name change).find? other =
      if other = name then (table.find? other).map change else table.find? other :=
  Bindings.lookup_adjust name other change table.entries

@[simp] theorem keys_adjust (table : Table α) (name : String) (change : α → α) :
    (table.adjust name change).keys = table.keys :=
  Bindings.keys_adjust name change table.entries

theorem contains_iff_find? (table : Table α) (name : String) :
    table.contains name = true ↔ ∃ value, table.find? name = some value :=
  Option.isSome_iff_exists

theorem contains_of_find? {table : Table α} {name : String} {value : α}
    (h : table.find? name = some value) : table.contains name = true :=
  (table.contains_iff_find? name).mpr ⟨value, h⟩

theorem find?_eq_none_iff (table : Table α) (name : String) :
    table.find? name = none ↔ table.contains name = false := by
  rw [contains, Option.isSome_eq_false_iff, Option.isNone_iff_eq_none]

theorem contains_insert_iff (table : Table α) (name other : String) (value : α) :
    (table.insert name value).contains other = true ↔ other = name ∨ table.contains other = true := by
  rw [contains, contains, find?_insert]
  split
  · next h => simp [h]
  · next h => simp [h]

theorem contains_erase_iff (table : Table α) (name other : String) :
    (table.erase name).contains other = true ↔ other ≠ name ∧ table.contains other = true := by
  rw [contains, contains, find?_erase]
  split
  · next h => simp [h]
  · next h => simp [h]

/-- A name is bound exactly if it is among the keys. -/
theorem contains_iff_mem_keys (table : Table α) (name : String) :
    table.contains name = true ↔ name ∈ table.keys := by
  simp only [contains, find?, keys]
  induction table.entries with
  | nil => simp
  | cons binding rest ih =>
    obtain ⟨key, old⟩ := binding
    rw [Bindings.lookup_cons, List.map_cons, List.mem_cons, ← ih]
    by_cases h : name = key <;> simp [h]

/-- A name is bound to a value exactly if the two are an entry. -/
theorem find?_eq_some_iff_mem {table : Table α} {name : String} {value : α} :
    table.find? name = some value ↔ (name, value) ∈ table.entries :=
  ⟨Bindings.mem_of_lookup, Bindings.lookup_of_mem table.nodup_keys⟩

/-- No entry occurs twice. -/
theorem nodup_entries (table : Table α) : table.entries.Nodup :=
  List.Pairwise.of_map Prod.fst (fun _ _ hne heq => hne (congrArg Prod.fst heq)) table.nodup_keys

/-- A value for a name that is not bound goes to the end. -/
theorem prefix_insertNew (table : Table α) (name : String) (value : α) :
    table.entries <+: (table.insertNew name value).entries := by
  unfold insertNew
  split
  · exact List.prefix_refl _
  · next h =>
    rw [contains_iff_mem_keys] at h
    exact ⟨[(name, value)], (Bindings.put_of_not_mem h).symm⟩

/-- What is bound stays bound if entries come behind. -/
theorem find?_of_prefix {table after : Table α} (h : table.entries <+: after.entries) {name : String}
    {value : α} (hfind : table.find? name = some value) : after.find? name = some value := by
  obtain ⟨more, hmore⟩ := h
  unfold find? at hfind ⊢
  rw [← hmore, List.lookup_append, hfind]
  rfl

end Table

/-! ## Name sets -/

/-- Names without repetition, in the order in which they were first added. -/
structure NameSet where
  names : List String := []
  nodup : names.Nodup := by exact List.Pairwise.nil

namespace NameSet

/-- The set without names. -/
def empty : NameSet := {}

instance : Inhabited NameSet := ⟨empty⟩

/-- Whether `name` was added. -/
def contains (set : NameSet) (name : String) : Bool :=
  set.names.contains name

/-- Whether no name is left. -/
def isEmpty (set : NameSet) : Bool :=
  set.names.isEmpty

/-- Adds `name` at the end unless it is there already. -/
def insert (set : NameSet) (name : String) : NameSet :=
  if h : name ∈ set.names then set
  else
    { names := set.names ++ [name]
      nodup := List.nodup_append.2 ⟨set.nodup, by simp, by
        intro a ha b hb e
        simp only [List.mem_singleton] at hb
        exact h (hb ▸ e ▸ ha)⟩ }

/-- Takes `name` out; the others keep their order. -/
def erase (set : NameSet) (name : String) : NameSet where
  names := set.names.filter (· != name)
  nodup := List.Nodup.sublist List.filter_sublist set.nodup

@[simp] theorem names_empty : empty.names = [] := rfl

theorem mem_names_insert (set : NameSet) (name other : String) :
    other ∈ (set.insert name).names ↔ other = name ∨ other ∈ set.names := by
  unfold insert
  split
  · rename_i h
    constructor
    · exact Or.inr
    · rintro (rfl | h')
      · exact h
      · exact h'
  · simp [or_comm]

theorem mem_names_erase (set : NameSet) (name other : String) :
    other ∈ (set.erase name).names ↔ other ≠ name ∧ other ∈ set.names := by
  simp [erase, and_comm]

theorem contains_iff_mem_names (set : NameSet) (name : String) :
    set.contains name = true ↔ name ∈ set.names :=
  List.contains_iff_mem

theorem prefix_insert (set : NameSet) (name : String) : set.names <+: (set.insert name).names := by
  unfold insert
  split
  · exact List.prefix_refl _
  · exact List.prefix_append _ _

/-- A new name that is added and taken out again leaves nothing behind. -/
theorem erase_insert {set : NameSet} {name : String} (h : set.contains name = false) :
    (set.insert name).erase name = set := by
  obtain ⟨names, hnodup⟩ := set
  have hnew : name ∉ names := by
    intro hmem
    rw [(contains_iff_mem_names ⟨names, hnodup⟩ name).mpr hmem] at h
    cases h
  have hnames : (names ++ [name]).filter (· != name) = names := by
    rw [List.filter_append, List.filter_eq_self.mpr]
    · simp
    · intro other hother
      rw [bne_iff_ne]
      rintro rfl
      exact hnew hother
  unfold insert erase
  simp only [hnew, dite_false, hnames]

end NameSet

end Injector
