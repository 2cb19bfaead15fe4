import Injector.Settings.Basic
import Injector.Text.Blank
import Injector.Text.Marks
import Injector.Value.Basic

/-!
# Placeholders

A text may hold placeholders: a key between an opening and a closing mark. Each stands for the value
of its key, which is expanded in turn, as the key itself is before it is looked up. A key without a
value may bring a default behind a separator.

The keys being expanded are kept on a stack; meeting one of them again is a circular reference. As a
default is cut out of a text that was expanded already, keys can grow without end, and the stack does
not stop that. Expansion is therefore bounded by a nesting depth: `expand` gives `Stop.tooDeep` beyond
it, and a greater depth changes no other outcome.

* `Marks.body?` finds the end of a placeholder, counting nested ones.
* `Marks.scan` goes over a text from placeholder to placeholder; it ends because the text shrinks.
* `Marks.expand` ties the knot, one level of depth at a time.
-/

namespace Injector

/-! ## Marks -/

/-- How placeholders are written, and what they stand for. -/
structure Marks where
  opening : List Char
  closing : List Char
  /-- What stands before a default, if there are defaults. -/
  separator : Option (List Char)
  /-- Whether a placeholder without a value stays as it is. -/
  lenient : Bool
  properties : PropertyTable

/-- The placeholders that settings describe. -/
def Settings.marks (settings : Settings) : Marks where
  opening := settings.opening.toList
  closing := settings.closing.toList
  separator := if settings.separator.isEmpty then none else some settings.separator.toList
  lenient := settings.lenient
  properties := settings.properties

namespace Marks

/-- Splits what follows an opening mark at the closing mark that belongs to it: the placeholder's
body and the rest. The depth counts the placeholders that are open inside the body. -/
def body? (marks : Marks) (depth : Nat) (text : List Char) : Option (List Char × List Char) :=
  match text with
  | [] => none
  | c :: rest =>
    match _h : marks.closing.isPrefixOf? (c :: rest) with
    | some after =>
      match depth with
      | 0 => some ([], after)
      | depth + 1 =>
        (marks.body? depth after).map fun (body, beyond) => (marks.closing ++ body, beyond)
    | none =>
      match h' : marks.opening.isPrefixOf? (c :: rest) with
      | some after =>
        if marks.opening = [] then none
        else
          (marks.body? (depth + 1) after).map fun (body, beyond) => (marks.opening ++ body, beyond)
      | none => (marks.body? depth rest).map fun (body, beyond) => (c :: body, beyond)
termination_by (text.length, depth)
decreasing_by
  · have e := congrArg List.length (Text.append_of_isPrefixOf? _h)
    simp only [List.length_append] at e
    rcases Nat.eq_zero_or_pos marks.closing.length with hz | hp
    · have : after.length = (c :: rest).length := by omega
      rw [this]
      exact Prod.Lex.right _ (Nat.lt_succ_self _)
    · exact Prod.Lex.left _ _ (by omega)
  · have e := congrArg List.length (Text.append_of_isPrefixOf? h')
    rename_i hne
    have hp : 0 < marks.opening.length := List.length_pos_iff.2 hne
    simp only [List.length_append] at e
    exact Prod.Lex.left _ _ (by omega)
  · exact Prod.Lex.left _ _ (by simp)

/-- The value of a placeholder: that of its whole body, or else that of the key before the first
separator, or else the default behind it. -/
def value? (marks : Marks) (body : List Char) : Option (List Char) :=
  match marks.properties.find? (String.ofList body) with
  | some value => some value.toList
  | none =>
    match marks.separator.bind fun separator => Text.cutAt separator body with
    | none => none
    | some (key, fallback) =>
      match marks.properties.find? (String.ofList key) with
      | some value => some value.toList
      | none => some fallback

/-! ## Expansion -/

/-- What expansion gives. -/
abbrev Expansion := Except Stop (List Char)

/-- The failure to expand a text. -/
def refusal (whole : String) (fault : EvaluationFault) : Stop :=
  .failure (.evaluation whole fault)

/-- Expands one placeholder: its body with the given expansion of nested texts, and then its value
while the body is on the stack. -/
def substitute (marks : Marks) (whole : String)
    (nested : List (List Char) → List Char → Expansion) (stack : List (List Char))
    (body : List Char) : Expansion := do
  let key ← nested stack body
  if stack.contains key then
    throw (refusal whole (.circular (String.ofList key)))
  match marks.value? key with
  | some value => nested (key :: stack) value
  | none =>
    if marks.lenient then pure (marks.opening ++ body ++ marks.closing)
    else throw (refusal whole (.unresolvable (String.ofList key)))

/-- Expands the placeholders of a text from left to right. An opening mark that is not closed is
text like what follows it. -/
def scan (marks : Marks) (whole : String) (nested : List (List Char) → List Char → Expansion)
    (stack : List (List Char)) (text : List Char) : Expansion :=
  match Text.cutAt marks.opening text with
  | none => pure text
  | some (before, opened) =>
    match marks.body? 0 opened with
    | none => pure text
    | some (body, rest) => do
      let inserted ← marks.substitute whole nested stack body
      if rest.length < text.length then
        let remainder ← marks.scan whole nested stack rest
        pure (before ++ inserted ++ remainder)
      else
        -- both marks are empty: the same text would be met again and again
        throw .tooDeep
termination_by text.length

/-- Expands a text with at most the given depth of nested texts. -/
def expand (marks : Marks) (whole : String) : Nat → List (List Char) → List Char → Expansion
  | 0, _, _ => throw .tooDeep
  | depth + 1, stack, text => marks.scan whole (marks.expand whole depth) stack text

end Marks

/-! ## Texts of definitions -/

namespace Settings

/-- Replaces every placeholder of a text. -/
def expand (settings : Settings) (depth : Nat) (text : String) : Except Stop String :=
  (settings.marks.expand text depth [] text.toList).map String.ofList

/-- The text that, alone but for blanks around it, evaluates to null. -/
def nullExpression : String := "#\x7bnull\x7d"

/-- The value of a text in a definition: null for the null expression, and otherwise the text with
its placeholders replaced. -/
def evaluate (settings : Settings) (depth : Nat) (text : String) : Except Stop Value :=
  if Text.trim text = nullExpression then .ok .null
  else if Text.occursIn settings.opening.toList text.toList then
    (settings.expand depth text).map .text
  else .ok (.text text)

end Settings

end Injector
