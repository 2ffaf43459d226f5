import ZoneScript.Yaml.Token
import ZoneScript.Text.Integer

/-!
# Directives, anchors and tags

What stands in front of a document or of a node: directives for the version and for tag handles,
anchors and the aliases that refer to them, and tags.
-/

namespace ZoneScript.Yaml

/-! ## Names of nodes -/

/-- What may follow the name of an anchor. -/
def endsName (c : Option Char) : Bool :=
  isGap c || c.any fun ch =>
    ch == '?' || ch == ':' || ch == ',' || ch == ']' || ch == '\x7d' || ch == '%' || ch == '@'
      || ch == '\x60'

/-- The anchor or alias at the cursor. -/
def anchorOrAlias (isAlias : Bool) (cursor : Cursor) : Except Problem (Token × Cursor) :=
  let name := (cursor.skip 1).rest.takeWhile isNameChar
  let next := (cursor.skip 1).skipWhile isNameChar
  if name.isEmpty || !endsName next.head? then
    .error ⟨"did not find expected alphabetic or numeric character", next.mark,
      some (if isAlias then "while scanning an alias" else "while scanning an anchor")⟩
  else
    .ok (⟨if isAlias then .alias (.ofList name) else .anchor (.ofList name), cursor.mark, next.mark⟩,
      next)

/-! ## Tags -/

/-- The characters of a tag besides letters, digits, `_` and `-`. In the verbatim form and in a
directive a comma and brackets are allowed too. -/
def isTagChar (verbatim : Bool) (c : Char) : Bool :=
  isNameChar c || ";/?:@&=+$.%!~*'()".toList.contains c || (verbatim && ",[]".toList.contains c)

/-- What is being read when a tag goes wrong. -/
def doingTag (directive : Bool) : Option String :=
  some (if directive then "while parsing a %TAG directive" else "while parsing a tag")

/-- The number of octets of a character, by its first one. -/
def encodedWidth (octet : UInt8) : Nat :=
  if octet < 0x80 then 1 else if octet < 0xC0 then 0 else if octet < 0xE0 then 2
  else if octet < 0xF0 then 3 else if octet < 0xF8 then 4 else 0

/-- The octet that a percent sign and two hexadecimal digits write. -/
def escapedOctet? (cs : List Char) : Option UInt8 :=
  match cs with
  | '%' :: a :: b :: _ =>
    (Text.digitValue? 16 a).bind fun x =>
      (Text.digitValue? 16 b).map fun y => (16 * x + y).toUInt8
  | _ => none

/-- The octets after the first one of an escaped character, put in front of those already `done`. -/
def readTrailing (directive : Bool) :
    Nat → List UInt8 → Cursor → Except Problem (List UInt8 × Cursor)
  | 0, done, cursor => .ok (done, cursor)
  | count + 1, done, cursor =>
    match escapedOctet? cursor.rest with
    | none => .error ⟨"did not find URI escaped octet", cursor.mark, doingTag directive⟩
    | some octet =>
      if octet / 64 = 2 then readTrailing directive count (octet :: done) (cursor.skip 3)
      else .error ⟨"found an incorrect trailing UTF-8 octet", cursor.mark, doingTag directive⟩

/-- The octets of an escaped character of a tag, put in front of those already `done`. Their number
fits the first of them, and that is all that is asked of them here. -/
def readEscaped (directive : Bool) (done : List UInt8) (cursor : Cursor) :
    Except Problem (List UInt8 × Cursor) :=
  match escapedOctet? cursor.rest with
  | none => .error ⟨"did not find URI escaped octet", cursor.mark, doingTag directive⟩
  | some octet =>
    let width := encodedWidth octet
    if width = 0 then .error ⟨"found an incorrect leading UTF-8 octet", cursor.mark, doingTag directive⟩
    else readTrailing directive (width - 1) (octet :: done) (cursor.skip 3)

/-- The octets of a tag, last first, put in front of those already `done`. -/
def readTagOctets (verbatim directive : Bool) :
    Nat → List UInt8 → Cursor → Except Problem (List UInt8 × Cursor)
  | 0, done, cursor => .ok (done, cursor)
  | fuel + 1, done, cursor =>
    match cursor.head? with
    | none => .ok (done, cursor)
    | some c =>
      if c == '%' then
        (readEscaped directive done cursor).bind fun (done, next) =>
          readTagOctets verbatim directive fuel done next
      else if isTagChar verbatim c then
        readTagOctets verbatim directive fuel (c.toNat.toUInt8 :: done) (cursor.skip 1)
      else .ok (done, cursor)

/-- A tag or a part of one, for which at least one octet must be written. -/
def writtenTag (verbatim directive : Bool) (cursor : Cursor) : Except Problem (Tag × Cursor) :=
  (readTagOctets verbatim directive (cursor.rest.length + 1) [] cursor).bind fun (done, next) =>
    if done.isEmpty then .error ⟨"did not find expected tag URI", next.mark, doingTag directive⟩
    else .ok (.ofOctets done.reverse, next)

/-- A tag handle: an exclamation mark, and perhaps a name and another one. -/
def tagHandle (directive : Bool) (cursor : Cursor) : Except Problem (List Char × Cursor) :=
  if cursor.head? != some '!' then
    .error ⟨"did not find expected '!'", cursor.mark,
      some (if directive then "while scanning a %TAG directive" else "while scanning a tag")⟩
  else
    let name := (cursor.skip 1).rest.takeWhile isNameChar
    let next := (cursor.skip 1).skipWhile isNameChar
    if next.head? == some '!' then .ok ('!' :: (name ++ ['!']), next.skip 1)
    else if directive && !name.isEmpty then
      .error ⟨"did not find expected '!'", next.mark, some "while parsing a %TAG directive"⟩
    else .ok ('!' :: name, next)

/-- The handle and the suffix of a tag in the short form, which stands after the handle. -/
def shortTag (handle : List Char) (cursor : Cursor) :
    Except Problem (List Char × Tag × Cursor) :=
  if 2 ≤ handle.length && handle.getLast? == some '!' then
    (writtenTag false false cursor).map fun (suffix, next) => (handle, suffix, next)
  else
    (readTagOctets false false (cursor.rest.length + 1) [] cursor).map fun (done, next) =>
      let suffix := Tag.ofOctets ((handle.drop 1).map (·.toNat.toUInt8) ++ done.reverse)
      if suffix.octets.isEmpty then ([], .ofText "!", next) else (['!'], suffix, next)

/-- The tag at the cursor. -/
def tag (flow : Bool) (cursor : Cursor) : Except Problem (Token × Cursor) := do
  let (handle, suffix, next) ←
    if cursor.peek? 1 == some '<' then do
      let (suffix, next) ← writtenTag true false (cursor.skip 2)
      if next.head? == some '>' then pure ([], suffix, next.skip 1)
      else throw ⟨"did not find the expected '>'", next.mark, some "while scanning a tag"⟩
    else do
      let (handle, next) ← tagHandle false cursor
      shortTag handle next
  if isGap next.head? || (flow && next.head? == some ',') then
    return (⟨.tag (.ofList handle) suffix, cursor.mark, next.mark⟩, next)
  else
    throw ⟨"did not find expected whitespace or line break", next.mark, some "while scanning a tag"⟩

/-! ## Directives -/

/-- The number of a version, of at most nine digits. -/
def versionNumber (cursor : Cursor) : Except Problem (Nat × Cursor) :=
  let digits := cursor.rest.takeWhile Char.isDigit
  if 9 < digits.length then
    .error ⟨"found extremely long version number", (cursor.skip 9).mark,
      some "while scanning a %YAML directive"⟩
  else match Text.readNat? 10 digits with
    | none =>
      .error ⟨"did not find expected version number", cursor.mark,
        some "while scanning a %YAML directive"⟩
    | some n => .ok (n, cursor.skip digits.length)

/-- The version that a directive names. -/
def versionValue (cursor : Cursor) : Except Problem (TokenKind × Cursor) := do
  let (major, cursor) ← versionNumber (cursor.skipWhile isBlank)
  if cursor.head? != some '.' then
    throw ⟨"did not find expected digit or '.' character", cursor.mark,
      some "while scanning a %YAML directive"⟩
  let (minor, cursor) ← versionNumber (cursor.skip 1)
  return (.versionDirective major minor, cursor)

/-- The handle that a directive defines, and what it stands for. -/
def tagValue (cursor : Cursor) : Except Problem (TokenKind × Cursor) := do
  let (handle, cursor) ← tagHandle true (cursor.skipWhile isBlank)
  if !(cursor.head?.map isBlank).getD false then
    throw ⟨"did not find expected whitespace", cursor.mark, some "while scanning a %TAG directive"⟩
  let (replacement, cursor) ← writtenTag true true (cursor.skipWhile isBlank)
  if !isGap cursor.head? then
    throw ⟨"did not find expected whitespace or line break", cursor.mark,
      some "while scanning a %TAG directive"⟩
  return (.tagDirective (.ofList handle) replacement, cursor)

/-- The directive at the cursor. -/
def directive (cursor : Cursor) : Except Problem (Token × Cursor) := do
  let doing := some "while scanning a directive"
  let name := (cursor.skip 1).rest.takeWhile isNameChar
  let after := (cursor.skip 1).skipWhile isNameChar
  if name.isEmpty then throw ⟨"could not find expected directive name", after.mark, doing⟩
  if !isGap after.head? then
    throw ⟨"found unexpected non-alphabetical character", after.mark, doing⟩
  let (kind, next) ←
    if name == "YAML".toList then versionValue after
    else if name == "TAG".toList then tagValue after
    else throw ⟨"found unknown directive name", after.mark, doing⟩
  let line := next.skipBlanksAndComment
  if !line.atLineEnd then
    throw ⟨"did not find expected comment or line break", line.mark, doing⟩
  return (⟨kind, cursor.mark, next.mark⟩, line.skipLineBreak)

end ZoneScript.Yaml
