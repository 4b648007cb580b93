import PackageMigration.Text.Printed
/-
  Text between double quotes, as error messages show it.

  * `Text.escape`: how one character is written; `Text.quoted`: a whole text.
-/
namespace PackageMigration.Text

/-- A code point in small hexadecimal digits between braces, after `\u`. -/
def escapePoint (n : Nat) : List Char :=
  ['\\', 'u', '\x7b'] ++ Nat.toDigits 16 n ++ ['\x7d']

/-- One character inside quotes: the quote, the backslash and four controls have a short escape,
printed characters stand for themselves, and the rest are given by code point. -/
def escape (c : Char) : List Char :=
  if c = '\x00' then ['\\', '0']
  else if c = '\t' then ['\\', 't']
  else if c = '\n' then ['\\', 'n']
  else if c = '\r' then ['\\', 'r']
  else if c = '"' then ['\\', '"']
  else if c = '\\' then ['\\', '\\']
  else if isPrinted c then [c]
  else escapePoint c.toNat

/-- The text between double quotes, escaped. -/
def quoted (s : String) : String := String.ofList ('"' :: s.toList.flatMap escape ++ ['"'])

example : quoted "a\u00a0\"b" = "\"a\\u\x7ba0\x7d\\\"b\"" := by decide

end PackageMigration.Text
