/-!
# Libraries for TOML

How a document is spelled is not decided here. Documents are written and read by a library for TOML, and
settings need two functions of it (`Library`): one writes a document for a table, the other one reads the
table of a document.

What a library can be relied on for is a matter of the standard, which says of which table a text is the
document (`Standard`). A library that keeps to the standard writes a document for every plain table
(`Library.Writes`), and where a document says a plain table, it reads a table that the document says
(`Library.Reads`). Spelling is left to the library, and so is the order of what it reads.
-/

namespace Injector.Toml

/-! ## Tables -/

/-- What a table has under a key, as far as settings can ask for it. -/
inductive Item
  | boolean (value : Bool)
  | text (value : String)
  /-- A table of texts. -/
  | texts (entries : List (String × String))
  /-- Whatever else a document may say. -/
  | other
  deriving DecidableEq

/-- The keys of a table with what it has under them. -/
abbrev Fields := List (String × Item)

/-- Two items are the same but for the order of texts in a table. -/
inductive Item.Same : Item → Item → Prop
  | refl (item : Item) : Same item item
  | texts {first second : List (String × String)} (h : first.Perm second) :
      Same (.texts first) (.texts second)

/-- Two tables have the same under every key. The order of the keys does not matter. -/
def Fields.Same (first second : Fields) : Prop :=
  ∀ key, Option.Rel Item.Same (first.lookup key) (second.lookup key)

/-- A table of booleans, texts, and tables of texts. No key has two items. -/
structure Fields.Plain (fields : Fields) : Prop where
  distinct : (fields.map Prod.fst).Nodup
  known : ∀ field ∈ fields, field.2 ≠ .other
  inside : ∀ key entries, (key, .texts entries) ∈ fields → (entries.map Prod.fst).Nodup

/-! ## The standard and the libraries -/

/-- Which text is a document of which table. A document says one table only. -/
structure Standard where
  Says : String → Fields → Prop
  unambiguous : ∀ {text : String} {first second : Fields},
    Says text first → Says text second → first.Same second

/-- A library: the document that it writes for a table, and the table that it reads in a text. It may
refuse both. -/
structure Library where
  write : Fields → Option String
  read : String → Option Fields

namespace Library

variable (library : Library) (standard : Standard)

/-- For every plain table a document is written that says it. -/
def Writes : Prop :=
  ∀ fields : Fields, fields.Plain →
    ∃ text, library.write fields = some text ∧ standard.Says text fields

/-- In every document of a plain table, a table is read that the document says. -/
def Reads : Prop :=
  ∀ (text : String) (fields : Fields), fields.Plain → standard.Says text fields →
    ∃ read, library.read text = some read ∧ standard.Says text read

end Library

end Injector.Toml
