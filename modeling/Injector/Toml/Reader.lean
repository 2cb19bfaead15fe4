import Injector.Toml.Scalar

/-!
# Reading TOML

How the built-in library (`Library.builtin`) reads a document. A reader takes something off the beginning
of a text and gives it with the rest, or refuses. Every loop goes on only if the rest got shorter, so all
of them end by the length of the text.

Arrays and inline tables may be nested at most `nestingLimit` deep, and keys may have at most as many
parts.
-/

namespace Injector.Toml

/-- Takes something off the beginning of a text. -/
abbrev Reader (α : Type) := List Char → Option (α × List Char)

/-- How deep values may be nested. -/
def nestingLimit : Nat := 79

/-! ## Blanks, comments and ends of lines -/

/-- Whether a character separates words within a line. -/
def isGap (c : Char) : Bool :=
  c = ' ' || c = '\t'

/-- The text without the gap it begins with. -/
def skipGap (text : List Char) : List Char :=
  text.dropWhile isGap

/-- Whether comments and literal texts may have the character: no control character but the tab. -/
def isPrintable (c : Char) : Bool :=
  c = '\t' || (0x20 ≤ c.toNat && c.toNat ≠ 0x7F)

/-- What follows the end of a line. -/
def newline? : List Char → Option (List Char)
  | '\n' :: rest => some rest
  | '\r' :: '\n' :: rest => some rest
  | _ => none

/-- The text without the comment it begins with. -/
def skipComment : List Char → List Char
  | '#' :: rest => rest.dropWhile isPrintable
  | text => text

/-- What follows a line of which only a gap and a comment are left. -/
def lineEnd? (text : List Char) : Option (List Char) :=
  match skipComment (skipGap text) with
  | [] => some []
  | rest => newline? rest

/-- The text without gaps, comments and ends of lines before it. A comment has to end with its
line. -/
def skipLines (text : List Char) : List Char :=
  let begun := skipGap text
  match newline? (skipComment begun) with
  | none => begun
  | some rest => if rest.length < text.length then skipLines rest else begun
termination_by text.length

/-! ## Texts in quotes -/

/-- The character of an escape with hexadecimal digits. -/
def codePoint? (digits : List Char) : Option Char :=
  if digits.all fun c => (digitIn? 16 c).isSome then
    let value := valueIn 16 digits
    if value.isValidChar then some (Char.ofNat value) else none
  else none

/-- The character of an escape, which begins behind the backslash. -/
def escape? : Reader Char
  | 'b' :: rest => some ('\x08', rest)
  | 't' :: rest => some ('\t', rest)
  | 'n' :: rest => some ('\n', rest)
  | 'f' :: rest => some ('\x0c', rest)
  | 'r' :: rest => some ('\r', rest)
  | '"' :: rest => some ('"', rest)
  | '\\' :: rest => some ('\\', rest)
  | 'u' :: rest =>
    if rest.length < 4 then none else (codePoint? (rest.take 4)).map (·, rest.drop 4)
  | 'U' :: rest =>
    if rest.length < 8 then none else (codePoint? (rest.take 8)).map (·, rest.drop 8)
  | _ => none

/-- The rest of a text in double quotes, up to the closing one. -/
def quotedRest : List Char → Option (List Char × List Char)
  | [] => none
  | '"' :: rest => some ([], rest)
  | '\\' :: rest =>
    match escape? rest with
    | none => none
    | some (c, beyond) =>
      if beyond.length ≤ rest.length then
        (quotedRest beyond).map fun (content, rest) => (c :: content, rest)
      else none
  | c :: rest =>
    if isPrintable c then (quotedRest rest).map fun (content, rest) => (c :: content, rest) else none
termination_by text => text.length
decreasing_by
  all_goals simp only [List.length_cons]; omega

/-- The rest of a text in single quotes, up to the closing one. Nothing is an escape. -/
def literalRest : List Char → Option (List Char × List Char)
  | [] => none
  | '\'' :: rest => some ([], rest)
  | c :: rest =>
    if isPrintable c then (literalRest rest).map fun (content, rest) => (c :: content, rest) else none

/-- What follows three closing quotes. Up to two more belong to the text. -/
def closing (quote : Char) : List Char → List Char × List Char
  | first :: second :: rest =>
    if first = quote then
      if second = quote then ([quote, quote], rest) else ([quote], second :: rest)
    else ([], first :: second :: rest)
  | [first] => if first = quote then ([quote], []) else ([], [first])
  | [] => ([], [])

/-- The text without gaps and ends of lines before it. -/
def skipBlankLines : List Char → List Char
  | ' ' :: rest => skipBlankLines rest
  | '\t' :: rest => skipBlankLines rest
  | '\n' :: rest => skipBlankLines rest
  | '\r' :: '\n' :: rest => skipBlankLines rest
  | text => text

/-- What follows a backslash at the end of a line. -/
def continued? (text : List Char) : Option (List Char) :=
  (newline? (skipGap text)).map skipBlankLines

/-- The rest of a text of several lines, up to its closing quotes. Ends of lines become line feeds;
among double quotes there are escapes. -/
def longRest (quote : Char) : List Char → Option (List Char × List Char)
  | [] => none
  | c :: rest =>
    if c = quote then
      match rest with
      | second :: third :: beyond =>
        if second = quote ∧ third = quote then some (closing quote beyond)
        else
          (longRest quote (second :: third :: beyond)).map fun (content, rest) => (c :: content, rest)
      | _ => none
    else if c = '\\' ∧ quote = '"' then
      match continued? rest with
      | some beyond => if beyond.length ≤ rest.length then longRest quote beyond else none
      | none =>
        match escape? rest with
        | none => none
        | some (c, beyond) =>
          if beyond.length ≤ rest.length then
            (longRest quote beyond).map fun (content, rest) => (c :: content, rest)
          else none
    else
      match newline? (c :: rest) with
      | some beyond =>
        if beyond.length ≤ rest.length then
          (longRest quote beyond).map fun (content, rest) => ('\n' :: content, rest)
        else none
      | none =>
        if isPrintable c then
          (longRest quote rest).map fun (content, rest) => (c :: content, rest)
        else none
termination_by text => text.length
decreasing_by
  all_goals simp only [List.length_cons]; omega

/-- The text of several lines behind its opening quotes. An end of line right behind them does not
count. -/
def longText (quote : Char) (text : List Char) : Option (List Char × List Char) :=
  longRest quote ((newline? text).getD text)

/-- A text in quotes of any kind. -/
def quoted? : Reader String := fun text =>
  let content :=
    match text with
    | '"' :: '"' :: '"' :: rest => longText '"' rest
    | '"' :: rest => quotedRest rest
    | '\'' :: '\'' :: '\'' :: rest => longText '\'' rest
    | '\'' :: rest => literalRest rest
    | _ => none
  content.map fun (content, rest) => (String.ofList content, rest)

/-! ## Keys -/

/-- Whether a key without quotes may have the character. -/
def isBareChar (c : Char) : Bool :=
  c.isAlphanum || c = '-' || c = '_'

/-- A part of a key: a run of bare characters, or a text in quotes on one line. -/
def keyPart? : Reader String
  | '"' :: rest => (quotedRest rest).map fun (content, rest) => (String.ofList content, rest)
  | '\'' :: rest => (literalRest rest).map fun (content, rest) => (String.ofList content, rest)
  | text =>
    match text.takeWhile isBareChar with
    | [] => none
    | bare => some (String.ofList bare, text.dropWhile isBareChar)

/-- The parts of a key, which dots separate. There may be gaps around each part. -/
def keyParts? (text : List Char) : Option (List String × List Char) :=
  match keyPart? (skipGap text) with
  | none => none
  | some (part, rest) =>
    match skipGap rest with
    | '.' :: beyond =>
      if beyond.length < text.length then
        (keyParts? beyond).map fun (parts, rest) => (part :: parts, rest)
      else none
    | rest => some ([part], rest)
termination_by text.length

/-- A key: the parts before the last, and the last. -/
def key? : Reader (List String × String) := fun text =>
  match keyParts? text with
  | none => none
  | some (parts, rest) =>
    if nestingLimit < parts.length then none
    else parts.getLast?.map fun last => ((parts.dropLast, last), rest)

/-! ## Values -/

/-- A word without quotes. A date may be followed by a space and a time. -/
def word? : Reader Node := fun text =>
  let word := text.takeWhile isWordChar
  let rest := text.dropWhile isWordChar
  let (word, rest) :=
    match date? word, rest with
    | some (_, []), ' ' :: c :: beyond =>
      if c.isDigit then
        (word ++ ' ' :: (c :: beyond).takeWhile isWordChar, (c :: beyond).dropWhile isWordChar)
      else (word, rest)
    | _, _ => (word, rest)
  (scalar? word).map (·, rest)

/-- The items of an array behind its opening bracket, up to the closing one. -/
def items? (item : Reader Node) (text : List Char) : Option (List Node × List Char) :=
  match skipLines text with
  | ']' :: rest => some ([], rest)
  | begun =>
    match item begun with
    | none => none
    | some (node, rest) =>
      match skipLines rest with
      | ']' :: rest => some ([node], rest)
      | ',' :: beyond =>
        if beyond.length < text.length then
          (items? item beyond).map fun (nodes, rest) => (node :: nodes, rest)
        else none
      | _ => none
termination_by text.length

/-- A key and its value. -/
def pair? (value : Reader Node) : Reader ((List String × String) × Node) := fun text =>
  match key? text with
  | some (key, '=' :: rest) => (value (skipGap rest)).map fun (node, rest) => ((key, node), rest)
  | _ => none

/-- The pairs of an inline table, of which there is at least one, up to the closing brace. -/
def pairs? (value : Reader Node) (text : List Char) :
    Option (List ((List String × String) × Node) × List Char) :=
  match pair? value text with
  | none => none
  | some (pair, rest) =>
    match skipGap rest with
    | '}' :: rest => some ([pair], rest)
    | ',' :: beyond =>
      if beyond.length < text.length then
        (pairs? value beyond).map fun (pairs, rest) => (pair :: pairs, rest)
      else none
    | _ => none
termination_by text.length

/-- An inline table behind its opening brace. -/
def inlineTable? (value : Reader Node) : Reader Node := fun text =>
  match skipGap text with
  | '}' :: rest => some (.table .braces [], rest)
  | begun =>
    match pairs? value begun with
    | none => none
    | some (pairs, rest) => (ofPairs? pairs).map (·, rest)

/-- A value that nests at most as deep as given. -/
def value? : Nat → Reader Node
  | nesting, '[' :: rest =>
    match nesting with
    | 0 => none
    | nesting + 1 => (items? (value? nesting) rest).map fun (items, rest) => (.array items, rest)
  | nesting, '{' :: rest =>
    match nesting with
    | 0 => none
    | nesting + 1 => inlineTable? (value? nesting) rest
  | _, text =>
    match text with
    | '"' :: _ => (quoted? text).map fun (content, rest) => (.text content, rest)
    | '\'' :: _ => (quoted? text).map fun (content, rest) => (.text content, rest)
    | _ => word? text

/-! ## Documents -/

/-- A header and what follows its line. -/
def headerLine? (text : List Char) : Option (Statement × List Char) :=
  match text with
  | '[' :: '[' :: rest =>
    match key? rest with
    | some ((path, name), ']' :: ']' :: rest) => (lineEnd? rest).map (.elementHeader path name, ·)
    | _ => none
  | '[' :: rest =>
    match key? rest with
    | some ((path, name), ']' :: rest) => (lineEnd? rest).map (.header path name, ·)
    | _ => none
  | _ => none

/-- A key, its value and what follows their line. -/
def assignmentLine? (text : List Char) : Option (Statement × List Char) :=
  match pair? (value? nestingLimit) text with
  | some (((path, name), node), rest) => (lineEnd? rest).map (.assignment path name node, ·)
  | none => none

/-- The statements of a document. -/
def statements? (text : List Char) : Option (List Statement) :=
  match skipLines text with
  | [] => some []
  | '#' :: comment =>
    if comment.dropWhile isPrintable = [] then some [] else none
  | begun =>
    let line :=
      match begun with
      | '[' :: _ => headerLine? begun
      | _ => assignmentLine? begun
    match line with
    | none => none
    | some (statement, rest) =>
      if rest.length < text.length then (statements? rest).map (statement :: ·) else none
termination_by text.length

/-- Reads a document. A byte order mark before it does not count. -/
def read? (text : String) : Option Entries :=
  let content :=
    match text.toList with
    | '\uFEFF' :: rest => rest
    | content => content
  (statements? content).bind ofStatements?

end Injector.Toml
