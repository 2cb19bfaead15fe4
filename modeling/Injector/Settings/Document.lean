import Injector.Settings.Basic
import Injector.Toml.Library

/-!
# Settings in TOML

Settings are a table with one key for each switch, and with a table of the properties. Reading takes the
switches that are there and leaves the others as they are by default; keys that mean nothing here are
passed over, but what has a meaning has to be of the right kind.

How a table becomes a document, and what table a document has, is for a library to say (`Toml.Library`).
-/

namespace Injector.Settings

open Toml

/-! ## Fields -/

/-- The fields of settings, in the order in which they are written. -/
def fields (settings : Settings) : Fields :=
  [("allow_definition_overriding", .boolean settings.allowOverriding),
    ("placeholder_prefix", .text settings.opening),
    ("placeholder_suffix", .text settings.closing),
    ("value_separator", .text settings.separator),
    ("ignore_unresolvable_placeholders", .boolean settings.lenient),
    ("properties", .texts settings.properties.entries)]

/-- The boolean of a key, or a default if the table does not have the key. -/
def booleanAt (key : String) (default : Bool) (fields : Fields) : Except SettingsFault Bool :=
  match fields.lookup key with
  | none => .ok default
  | some (.boolean value) => .ok value
  | some _ => .error .malformed

/-- The text of a key, or a default if the table does not have the key. -/
def textAt (key default : String) (fields : Fields) : Except SettingsFault String :=
  match fields.lookup key with
  | none => .ok default
  | some (.text value) => .ok value
  | some _ => .error .malformed

/-- The properties of a key, or none if the table does not have the key. -/
def propertiesAt (key : String) (fields : Fields) : Except SettingsFault PropertyTable :=
  match fields.lookup key with
  | none => .ok .empty
  | some (.texts entries) => .ok (.ofList entries)
  | some _ => .error .malformed

/-- The settings that a table describes. -/
def ofFields (fields : Fields) : Except SettingsFault Settings := do
  let defaults : Settings := {}
  pure
    { allowOverriding := ← booleanAt "allow_definition_overriding" defaults.allowOverriding fields
      opening := ← textAt "placeholder_prefix" defaults.opening fields
      closing := ← textAt "placeholder_suffix" defaults.closing fields
      separator := ← textAt "value_separator" defaults.separator fields
      lenient := ← booleanAt "ignore_unresolvable_placeholders" defaults.lenient fields
      properties := ← propertiesAt "properties" fields }

/-! ## Documents -/

/-- The document of the settings, if the library can write it. -/
def toToml (library : Library) (settings : Settings) : Except SettingsFault String :=
  match library.write settings.fields with
  | none => .error .malformed
  | some text => .ok text

/-- The settings that a document describes, if they can be used. -/
def ofToml (library : Library) (text : String) : Except SettingsFault Settings :=
  match library.read text with
  | none => .error .malformed
  | some fields => do (← ofFields fields).validated

/-- The settings in the bytes of a file, which have to be a text. -/
def ofBytes (library : Library) (bytes : ByteArray) : Except SettingsFault Settings :=
  match String.fromUTF8? bytes with
  | none => .error .unreadable
  | some text => ofToml library text

end Injector.Settings
