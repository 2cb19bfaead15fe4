import Injector.Number.Binary64
import Injector.Table

/-!
# TOML documents

What the built-in library (`Library.builtin`) reads. A document is a table of named nodes. Its statements
give a key a value, open a table, or open a new element of an array of tables; `Document.ofStatements?`
carries them out one after the other and refuses what TOML forbids: giving a key twice, opening a table
twice, and adding to what is closed.

What may be added to a table depends on where the table comes from (`Origin`). A table written in
braces is closed. One opened by a header takes keys below that header. One that only occurs inside a
longer header may still be opened, and one made by a dotted key takes further dotted keys.
-/

namespace Injector.Toml

/-! ## Nodes -/

/-- Where a table comes from. -/
inductive Origin
  /-- It was written in braces. -/
  | braces
  /-- It was opened by a header of its own. -/
  | header
  /-- It occurred inside a longer header only. -/
  | implied
  /-- It was made by a dotted key. -/
  | dotted
  deriving DecidableEq

/-- A value of a document. -/
inductive Node
  | text (value : String)
  | boolean (value : Bool)
  | integer (value : Int)
  | float (value : Binary64)
  /-- A date, a time, or both, in its normal spelling. -/
  | moment (spelling : String)
  | array (items : List Node)
  | table (origin : Origin) (entries : List (String × Node))
  /-- An array of tables: the element that is open, and those before it, latest first. -/
  | tables (latest : List (String × Node)) (earlier : List (List (String × Node)))

/-- The entries of a table. -/
abbrev Entries := List (String × Node)

/-! ## Adding to tables -/

/-- Gives a key a value, unless it has one. The path holds the parts of the key before the last. -/
def assign (name : String) (node : Node) : List String → Entries → Option Entries
  | [], entries =>
    if (entries.lookup name).isSome then none else some (entries ++ [(name, node)])
  | part :: path, entries =>
    match entries.lookup part with
    | none =>
      (assign name node path []).map fun inside => entries ++ [(part, .table .dotted inside)]
    | some (.table .dotted inside) =>
      (assign name node path inside).map fun inside =>
        Bindings.put part (.table .dotted inside) entries
    | some (.table .implied inside) =>
      if path = [] then none
      else
        (assign name node path inside).map fun inside =>
          Bindings.put part (.table .implied inside) entries
    | some (.tables latest earlier) =>
      if path = [] then none
      else
        (assign name node path latest).map fun latest =>
          Bindings.put part (.tables latest earlier) entries
    | some _ => none

/-- Changes the table at the end of a path of headers. Tables on the way are made where there are
none; of an array of tables the latest element is meant. -/
def within : List String → (Entries → Option Entries) → Entries → Option Entries
  | [], change, entries => change entries
  | part :: path, change, entries =>
    match entries.lookup part with
    | none => (within path change []).map fun inside => entries ++ [(part, .table .implied inside)]
    | some (.table .braces _) => none
    | some (.table origin inside) =>
      (within path change inside).map fun inside => Bindings.put part (.table origin inside) entries
    | some (.tables latest earlier) =>
      (within path change latest).map fun latest =>
        Bindings.put part (.tables latest earlier) entries
    | some _ => none

/-- Opens a table that was not opened yet. -/
def openTable (name : String) (entries : Entries) : Option Entries :=
  match entries.lookup name with
  | none => some (entries ++ [(name, .table .header [])])
  | some (.table .implied inside) => some (Bindings.put name (.table .header inside) entries)
  | some _ => none

/-- Opens a new element of an array of tables. -/
def openElement (name : String) (entries : Entries) : Option Entries :=
  match entries.lookup name with
  | none => some (entries ++ [(name, .tables [] [])])
  | some (.tables latest earlier) =>
    some (Bindings.put name (.tables [] (latest :: earlier)) entries)
  | some _ => none

/-- The table of the pairs of an inline table. -/
def ofPairs? (pairs : List ((List String × String) × Node)) : Option Node :=
  (pairs.foldlM (fun entries pair => assign pair.1.2 pair.2 pair.1.1 entries) []).map
    (Node.table .braces)

/-! ## Statements -/

/-- A statement of a document. A key is the parts before the last, and the last. -/
inductive Statement
  | assignment (path : List String) (name : String) (node : Node)
  | header (path : List String) (name : String)
  | elementHeader (path : List String) (name : String)

/-- A document while its statements are carried out: its entries, and the path of the open table. -/
structure Draft where
  entries : Entries := []
  path : List String := []

/-- Carries out a statement. -/
def Draft.apply? (draft : Draft) : Statement → Option Draft
  | .assignment path name node =>
    (within draft.path (assign name node path) draft.entries).map fun entries =>
      { draft with entries }
  | .header path name =>
    (within path (openTable name) draft.entries).map fun entries =>
      { entries, path := path ++ [name] }
  | .elementHeader path name =>
    (within path (openElement name) draft.entries).map fun entries =>
      { entries, path := path ++ [name] }

/-- The document that statements make, if they are allowed. -/
def ofStatements? (statements : List Statement) : Option Entries :=
  (statements.foldlM Draft.apply? {}).map Draft.entries

end Injector.Toml
