import Injector.Text.Unseen

/-!
# Texts in listings

A listing shows texts between double quotes and spells out what would not be seen: quotes and
backslashes, and the characters that do not show by themselves (`isUnseen`).

It is how a class table prints the names of its classes (`ClassTable.summary`), the only text in which a
container shows what it was set up with. Names are taken as they are given, so any character may come up.
-/

namespace Injector.Text

/-- What stands for a character in a listing. -/
def listed (c : Char) : List Char :=
  if c = '"' then ['\\', '"']
  else if c = '\\' then ['\\', '\\']
  else if c = '\n' then ['\\', 'n']
  else if c = '\r' then ['\\', 'r']
  else if c = '\t' then ['\\', 't']
  else if c = '\x00' then ['\\', '0']
  else if isUnseen c then '\\' :: 'u' :: '{' :: Nat.toDigits 16 c.toNat ++ ['}']
  else [c]

/-- A text between double quotes. -/
def listing (text : String) : String :=
  String.ofList ('"' :: text.toList.flatMap listed ++ ['"'])

end Injector.Text
