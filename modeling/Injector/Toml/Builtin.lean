import Injector.Toml.Library
import Injector.Toml.Reader

/-!
# The built-in library for TOML

A library that containers can be run with where no other one is at hand. Settings do not depend on it:
what is shown of them holds of every library that keeps to a standard, and all that is shown of this one is
that it does.

It reads any document (`read?`) and tells of its nodes what settings can ask for. It writes plain tables
only: first what has a line of its own, and then the tables, each below its header. Keys of bare characters
are written as they are; other keys, and all texts, stand between double quotes.
-/

namespace Injector.Toml

/-! ## Reading -/

/-- The texts in a table that has nothing else. -/
def texts? (entries : Entries) : Option (List (String × String)) :=
  entries.mapM fun
    | (key, .text value) => some (key, value)
    | _ => none

/-- The key under which a date or time that stands in place of a table has its spelling. -/
def momentKey : String := "$__toml_private_datetime"

/-- What settings can ask of a node. A date or time counts as a table with one entry. -/
def Node.item : Node → Item
  | .boolean value => .boolean value
  | .text value => .text value
  | .table _ entries => ((texts? entries).map Item.texts).getD .other
  | .moment spelling => .texts [(momentKey, spelling)]
  | _ => .other

/-! ## Writing -/

/-- The hexadecimal digit of a number below sixteen. -/
def hexDigit (n : Nat) : Char :=
  if n < 10 then Char.ofNat ('0'.toNat + n) else Char.ofNat ('A'.toNat + n - 10)

/-- What stands for a character between double quotes. -/
def escaped (c : Char) : List Char :=
  if c = '"' then ['\\', '"']
  else if c = '\\' then ['\\', '\\']
  else if c = '\n' then ['\\', 'n']
  else if c = '\r' then ['\\', 'r']
  else if isPrintable c then [c]
  else ['\\', 'u', '0', '0', hexDigit (c.toNat / 16), hexDigit (c.toNat % 16)]

/-- A text between double quotes. -/
def quote (text : String) : List Char :=
  '"' :: text.toList.flatMap escaped ++ ['"']

/-- A key: as it is if it can do without quotes. -/
def spelledKey (key : String) : List Char :=
  if key.toList ≠ [] ∧ key.toList.all isBareChar then key.toList else quote key

/-- The word for a boolean. -/
def booleanWord (value : Bool) : List Char :=
  (if value then "true" else "false").toList

/-- A line that gives a key a value. -/
def line (key value : List Char) : List Char :=
  key ++ [' ', '=', ' '] ++ value ++ ['\n']

/-- The line of a header. -/
def headerLine (key : List Char) : List Char :=
  '[' :: key ++ [']', '\n']

/-- The lines of a field. Before a table there is an empty one. -/
def fieldLines : String × Item → List Char
  | (key, .boolean value) => line (spelledKey key) (booleanWord value)
  | (key, .text value) => line (spelledKey key) (quote value)
  | (key, .texts entries) =>
    '\n' :: headerLine (spelledKey key) ++
      entries.flatMap fun entry => line (spelledKey entry.1) (quote entry.2)
  | (_, .other) => []

/-- Whether the item is written below a header. -/
def Item.isTable : Item → Bool
  | .texts _ => true
  | _ => false

/-- The fields in the order in which they are written: the tables come last. -/
def Fields.written (fields : Fields) : Fields :=
  fields.filter (fun field => !field.2.isTable) ++ fields.filter fun field => field.2.isTable

/-- The document of a table. -/
def write? (fields : Fields) : Option String :=
  if fields.any fun field => field.2 = .other then none
  else some (String.ofList (fields.written.flatMap fieldLines))

/-! ## Both -/

/-- A library that reads whole documents and writes plain tables. -/
def Library.builtin : Library where
  write := write?
  read text := (read? text).map fun entries => entries.map fun entry => (entry.1, entry.2.item)

end Injector.Toml
