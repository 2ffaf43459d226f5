/-!
# Tags

A tag is a sequence of octets, most of them written as they are and the others by escapes. It ends in
front of an octet zero. Escapes can spell octets that encode no text; a tag of such octets names
nothing.
-/

namespace ZoneScript.Yaml

/-- A tag, or a part of one. -/
structure Tag where
  octets : List UInt8
  deriving DecidableEq, Repr, Inhabited

namespace Tag

/-- The tag that a sequence of octets spells, up to the first octet zero. -/
def ofOctets (octets : List UInt8) : Tag :=
  ⟨octets.takeWhile (· != 0)⟩

def ofText (text : String) : Tag :=
  ofOctets text.toUTF8.toList

def append (head tail : Tag) : Tag :=
  ⟨head.octets ++ tail.octets⟩

/-- The text that the octets encode. -/
def text? (tag : Tag) : Option String :=
  String.fromUTF8? tag.octets.toByteArray

/-- The octet of an exclamation mark. -/
def bang : UInt8 := 33

/-- Whether a tag is one of the document's own, which start with an exclamation mark. -/
def isOwn (tag : Tag) : Bool :=
  tag.octets.head? == some bang

/-- The name of a tag of the document's own: the tag without the mark it starts with, and without a
second one. A mark that is all there is stays. -/
def ownName? (tag : Tag) : Option String :=
  if tag.isOwn then
    tag.text?.map fun text => match text.toList with
      | ['!'] | ['!', '!'] => "!"
      | '!' :: '!' :: name | '!' :: name => .ofList name
      | name => .ofList name
  else none

end Tag

end ZoneScript.Yaml
