import ZoneScript.Node

/-!
# JSON text

Writes a document tree as JSON: two blanks for each level, one entry a line, and no blank lines. Quotes,
backslashes and the control characters below the blank are escaped; every other character stands for
itself. Trees that JSON does not have are written as near as it comes to them: a tag is left out, and a
key is the text of its scalar.
-/

namespace ZoneScript.Json

/-- A digit of a base up to sixteen, in lower case. -/
def hexDigit (n : Nat) : Char :=
  Nat.digitChar (n % 16)

/-- A character inside a string. -/
def escapedChar (c : Char) : List Char :=
  if c == '"' || c == '\\' then ['\\', c]
  else if c == '\x08' then ['\\', 'b']
  else if c == '\x0c' then ['\\', 'f']
  else if c == '\n' then ['\\', 'n']
  else if c == '\r' then ['\\', 'r']
  else if c == '\t' then ['\\', 't']
  else if c.toNat < 0x20 then ['\\', 'u', '0', '0', hexDigit (c.toNat / 16), hexDigit c.toNat]
  else [c]

/-- A text between quotes. -/
def stringText (text : String) : List Char :=
  '"' :: (text.toList.flatMap escapedChar ++ ['"'])

/-- A new line, `depth` levels in. -/
def newLine (depth : Nat) : List Char :=
  '\n' :: List.replicate (2 * depth) ' '

mutual

/-- A tree as JSON, its inner lines `depth` levels in. -/
def write (depth : Nat) : Node → List Char
  | .null => "null".toList
  | .bool b => (Node.boolText b).toList
  | .int n => Text.showInt n
  | .float x => x.markedText
  | .str s => stringText s
  | .seq [] => ['[', ']']
  | .seq (item :: items) =>
    '[' :: (newLine (depth + 1) ++ write (depth + 1) item ++ writeItems depth items
      ++ newLine depth ++ [']'])
  | .map [] => ['\x7b', '\x7d']
  | .map ((key, value) :: entries) =>
    '\x7b' :: (newLine (depth + 1) ++ stringText ((Node.scalarText? key).getD "")
      ++ [':', ' '] ++ write (depth + 1) value ++ writeEntries depth entries
      ++ newLine depth ++ ['\x7d'])
  | .tagged _ value => write depth value

/-- The items after the first one. -/
def writeItems (depth : Nat) : List Node → List Char
  | [] => []
  | item :: items =>
    ',' :: (newLine (depth + 1) ++ write (depth + 1) item ++ writeItems depth items)

/-- The entries after the first one. -/
def writeEntries (depth : Nat) : List (Node × Node) → List Char
  | [] => []
  | (key, value) :: entries =>
    ',' :: (newLine (depth + 1) ++ stringText ((Node.scalarText? key).getD "")
      ++ [':', ' '] ++ write (depth + 1) value ++ writeEntries depth entries)

end

/-- A tree as a JSON text. -/
def render (node : Node) : String :=
  .ofList (write 0 node)

end ZoneScript.Json
