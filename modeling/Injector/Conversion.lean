import Injector.Text.Blank
import Injector.Value.Basic

/-!
# Conversion

A converter turns a value into one of a required type, or says why it does not. `Conversion.simple`
reads texts as scalars, writes scalars as texts, and takes integers for floating-point numbers;
a value that the type accepts stays as it is.
-/

namespace Injector

/-- Turns a value into one of the required type. -/
abbrev Converter := Value → ValueType → Except Failure Value

namespace Conversion

/-- A text in lower case, as far as ASCII letters go. -/
def lowered (text : String) : String :=
  String.ofList (text.toList.map Char.toLower)

/-- Reads a boolean, in any case of letters and with blanks around it. -/
def boolean? (text : String) : Option Bool :=
  let word := lowered (Text.trim text)
  if ["true", "yes", "on", "1"].contains word then some true
  else if ["false", "no", "off", "0"].contains word then some false
  else none

/-- Reads a text as a scalar of the required type. -/
def ofText (text : String) : ValueType → Except MismatchFault Value
  | .bool =>
    match boolean? text with
    | some value => .ok (.bool value)
    | none => .error .notBoolean
  | .int =>
    match Number.readInteger (Text.trimmed text.toList) with
    | .ok value => .ok (.int (Int64.ofInt value))
    | .error fault => .error (.integer fault)
  | .float =>
    match Number.readFloat (Text.trimmed text.toList) with
    | .ok value => .ok (.float value)
    | .error fault => .error (.float fault)
  | .char =>
    match text.toList with
    | [c] => .ok (.char c)
    | _ => .error .notOneCharacter
  | _ => .error (.noConversion (Value.text text).kind)

/-- Converts a value that the type does not accept as it is. -/
def change (value : Value) (type : ValueType) : Except MismatchFault Value :=
  match value, type with
  | .text text, type => ofText text type
  | .int number, .float => .ok (.float (.ofInt number.toInt))
  | .bool _, .text | .int _, .text | .float _, .text | .char _, .text => .ok (.text value.toText)
  | _, _ => .error (.noConversion value.kind)

/-- Converts between texts and scalars. -/
def simple : Converter := fun value type =>
  if type.accepts value then .ok value
  else
    match change value type with
    | .ok converted => .ok converted
    | .error fault => .error (.typeMismatch value.toText type.name fault)

/-- Describes the conversion instead of doing it: the type, the kind of the value and its text. -/
def describing : Converter := fun value type =>
  .ok (.text ("<" ++ type.name ++ ":" ++ value.kind ++ ":" ++ value.toText ++ ">"))

end Conversion

end Injector
