import ZoneScript.Yaml.ScalarText

/-!
# YAML text

Writes a document tree in block style. Each level is two blanks deeper, but a list in a mapping starts
below its key. Collections without content are written in flow style. A key of several lines, a long
one and one that is a collection stand behind a question mark.
-/

namespace ZoneScript.Yaml

/-- The text of a node that is no text itself and has no lines of its own. -/
def wordText : Node → List Char
  | .bool b => (Node.boolText b).toList
  | .int n => Text.showInt n
  | .float x => x.markedText
  | .seq _ => ['[', ']']
  | .map _ => ['\x7b', '\x7d']
  | _ => "null".toList

/-- The text of a key without a mark in front, if it may be one. -/
def simpleKey? (indent : Nat) : Node → Option (List Char)
  | .str s => if isSimpleKey s then some (inlineText indent s) else none
  | .seq (_ :: _) | .map (_ :: _) | .tagged _ _ => none
  | key => some (wordText key)

/-- Whether a value starts on a line of its own below its key. -/
def startsBelow : Node → Bool
  | .seq (_ :: _) | .map (_ :: _) => true
  | _ => false

/-- How deep a value is indented below the key of a mapping. -/
def valueIndent (indent : Nat) : Node → Nat
  | .seq (_ :: _) => indent
  | _ => indent + 2

mutual

/-- The lines of a node; the first one starts at the column `indent`. -/
def write (indent : Nat) : Node → List Char
  | .str s => scalarLines indent s
  | .seq (item :: items) => writeItems indent (item :: items)
  | .map (entry :: entries) => writeEntries indent (entry :: entries)
  | .tagged tag value =>
    '!' :: (tag.toList ++ (if startsBelow value then '\n' :: pad indent else [' ']))
      ++ write indent value
  | node => wordText node ++ ['\n']

def writeItems (indent : Nat) : List Node → List Char
  | [] => []
  | item :: items =>
    '-' :: ' ' :: (write (indent + 2) item ++
      (if items.isEmpty then [] else pad indent ++ writeItems indent items))

def writeEntries (indent : Nat) : List (Node × Node) → List Char
  | [] => []
  | (key, value) :: entries =>
    (match simpleKey? (indent + 2) key with
      | some text =>
        let inside := valueIndent indent value
        text ++ ':' :: (if startsBelow value then '\n' :: pad inside else [' '])
          ++ write inside value
      | none =>
        '?' :: ' ' :: (write (indent + 2) key ++ pad indent ++ ':' :: ' ' :: write (indent + 2) value))
      ++ (if entries.isEmpty then [] else pad indent ++ writeEntries indent entries)

end

/-- A tree as a YAML text. -/
def render (node : Node) : String :=
  .ofList (write (if startsBelow node then 0 else 2) node)

end ZoneScript.Yaml
