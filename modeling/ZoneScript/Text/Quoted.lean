import ZoneScript.Text.Hidden

/-!
# Quoted texts in messages

A message that names a text puts it between double quotes. Quotes and backslashes are escaped, the
common control characters have short names, and every other character without a picture of its own is
written by its number.
-/

namespace ZoneScript.Text

/-- The number of a character in hexadecimal, between braces. -/
def byNumber (c : Char) : List Char :=
  "\\u\x7b".toList ++ Nat.toDigits 16 c.toNat ++ ['\x7d']

/-- A character as a quoted text shows it. -/
def quotedChar (c : Char) : List Char :=
  if c == '"' || c == '\\' then ['\\', c]
  else if c == '\n' then ['\\', 'n']
  else if c == '\r' then ['\\', 'r']
  else if c == '\t' then ['\\', 't']
  else if c == '\x00' then ['\\', '0']
  else if isHidden c then byNumber c
  else [c]

/-- A text between double quotes. -/
def quoted (text : String) : String :=
  .ofList ('"' :: (text.toList.flatMap quotedChar ++ ['"']))

end ZoneScript.Text
