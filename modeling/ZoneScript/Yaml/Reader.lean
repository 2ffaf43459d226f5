import ZoneScript.Yaml.Block
import ZoneScript.Yaml.Plain
import ZoneScript.Yaml.Property

/-!
# The tokens of a text

Takes a text apart into tokens. Collections in block style open and close with the indentation. That a
node is a key shows only at the colon after it, so the reader remembers where a key may have started,
on each level of flow collections one place, and sets the key token there when the colon comes. Such
a place is given up after the line, or after 1024 characters.

When a problem stops the reading, the tokens in front of it count, but only those that can no longer
turn out to be a key.
-/

namespace ZoneScript.Yaml

/-- A place where a key may have started. In a block mapping that is open at this column, a key must
have started there. -/
structure KeyPlace where
  required : Bool
  token : Nat
  mark : Mark
  deriving DecidableEq, Repr, Inhabited

/-- The state of reading. `places` has one entry for each open flow collection and one for the block
around them, the innermost first. The indentation outside of any block collection is `-1`. -/
structure Reader where
  cursor : Cursor
  tokens : Array Token := #[]
  indent : Int := -1
  outer : List Int := []
  keyAllowed : Bool := true
  places : List (Option KeyPlace) := [none]
  finished : Bool := false
  deriving Repr, Inhabited

/-- The longest distance between the start of a key and its colon. -/
def maxKeyLength : Nat := 1024

namespace Reader

/-! ## Places of keys -/

/-- Whether a flow collection is open. -/
def inFlow (r : Reader) : Bool :=
  1 < r.places.length

def keyProblem (mark : Mark) : Problem :=
  ⟨"could not find expected ':'", mark, some "while scanning a simple key"⟩

/-- Whether the key of a place can no longer come. -/
def isStale (mark : Mark) (place : KeyPlace) : Bool :=
  place.mark.line < mark.line || place.mark.index + maxKeyLength < mark.index

/-- Gives up the places whose keys can no longer come. -/
def dropStale (mark : Mark) : List (Option KeyPlace) → Except Problem (List (Option KeyPlace))
  | [] => .ok []
  | none :: places => (dropStale mark places).map (none :: ·)
  | some place :: places => do
    -- the outer places are older, so they are looked at first
    let places ← dropStale mark places
    if isStale mark place then
      if place.required then throw (keyProblem mark) else return none :: places
    else return some place :: places

def forgetStale (r : Reader) : Except Problem Reader :=
  (dropStale r.cursor.mark r.places).map fun places => { r with places }

/-- Gives up the place on the current level. -/
def forgetPlace (r : Reader) : Except Problem Reader :=
  match r.places with
  | some place :: places =>
    if place.required then .error (keyProblem r.cursor.mark)
    else .ok { r with places := none :: places }
  | _ => .ok r

/-- Remembers that a key may start here. -/
def rememberPlace (r : Reader) : Except Problem Reader :=
  if r.keyAllowed then do
    let required := !r.inFlow && r.indent == r.cursor.mark.column
    let r ← r.forgetPlace
    return { r with places := some ⟨required, r.tokens.size, r.cursor.mark⟩ :: r.places.drop 1 }
  else .ok r

/-! ## Indentation -/

def push (r : Reader) (kind : TokenKind) (start stop : Mark) : Reader :=
  { r with tokens := r.tokens.push ⟨kind, start, stop⟩ }

/-- Opens a block collection at a column that is deeper than the one around it; `at?` is the number
of the token in front of which it opens. -/
def openBlock (r : Reader) (column : Nat) (at? : Option Nat) (kind : TokenKind) (mark : Mark) :
    Reader :=
  if !r.inFlow && r.indent < column then
    { r with
      indent := column
      outer := r.indent :: r.outer
      tokens := r.tokens.insertIdxIfInBounds (at?.getD r.tokens.size) ⟨kind, mark, mark⟩ }
  else r

/-- Closes the block collections that are deeper than a column; `outer` bounds their number. -/
def closeFrom (column : Int) (mark : Mark) : List Int → Reader → Reader
  | [], r => r
  | indent :: outer, r =>
    if column < r.indent then
      closeFrom column mark outer
        { r with indent, outer, tokens := r.tokens.push ⟨.blockEnd, mark, mark⟩ }
    else r

def closeBlocks (r : Reader) (column : Int) : Reader :=
  if r.inFlow then r else closeFrom column r.cursor.mark r.outer r

/-! ## Between tokens -/

/-- Passes blanks, comments and line breaks. A tab is no blank where a key may start in a block; a
line break lets one start there. -/
def skipGap (flow : Bool) : Nat → Bool → Cursor → Bool × Cursor
  | 0, keyAllowed, cursor => (keyAllowed, cursor)
  | fuel + 1, keyAllowed, cursor =>
    let cursor :=
      if cursor.mark.column == 0 && (cursor.head?.map isByteOrderMark).getD false then cursor.skip 1
      else cursor
    let cursor := cursor.skipWhile fun c => c == ' ' || ((flow || !keyAllowed) && c == '\t')
    let cursor := if cursor.head? == some '#' then cursor.skipToLineEnd else cursor
    match cursor.lineBreak? with
    | some (_, next) => skipGap flow fuel (keyAllowed || !flow) next
    | none => (keyAllowed, cursor)

/-! ## The tokens one by one -/

def endStream (r : Reader) : Except Problem Reader := do
  let mark := r.cursor.mark
  let mark := if mark.column = 0 then mark else ⟨mark.line + 1, 0, mark.index⟩
  let r := { r with cursor := { r.cursor with mark } }
  let r ← (r.closeBlocks (-1)).forgetPlace
  return { r.push .streamEnd mark mark with keyAllowed := false, finished := true }

def readDirective (r : Reader) : Except Problem Reader := do
  let r ← (r.closeBlocks (-1)).forgetPlace
  let (token, cursor) ← directive r.cursor
  return { r with cursor, keyAllowed := false, tokens := r.tokens.push token }

/-- A token of `width` characters that stand for themselves. -/
def mark (r : Reader) (kind : TokenKind) (width : Nat) : Reader :=
  let next := r.cursor.skip width
  { r.push kind r.cursor.mark next.mark with cursor := next }

def readDocumentMarker (r : Reader) (kind : TokenKind) : Except Problem Reader := do
  let r ← (r.closeBlocks (-1)).forgetPlace
  return { r.mark kind 3 with keyAllowed := false }

def openFlow (r : Reader) (kind : TokenKind) : Except Problem Reader := do
  let r ← r.rememberPlace
  return { r.mark kind 1 with keyAllowed := true, places := none :: r.places }

def closeFlow (r : Reader) (kind : TokenKind) : Except Problem Reader := do
  let r ← r.forgetPlace
  let places := if r.inFlow then r.places.drop 1 else r.places
  return { r.mark kind 1 with keyAllowed := false, places }

def readFlowEntry (r : Reader) : Except Problem Reader := do
  let r ← r.forgetPlace
  return { r.mark .flowEntry 1 with keyAllowed := true }

def readBlockEntry (r : Reader) : Except Problem Reader := do
  if !r.inFlow && !r.keyAllowed then
    throw ⟨"block sequence entries are not allowed in this context", r.cursor.mark, none⟩
  let r ← (r.openBlock r.cursor.mark.column none .blockSequenceStart r.cursor.mark).forgetPlace
  return { r.mark .blockEntry 1 with keyAllowed := true }

def readKey (r : Reader) : Except Problem Reader := do
  if !r.inFlow && !r.keyAllowed then
    throw ⟨"mapping keys are not allowed in this context", r.cursor.mark, none⟩
  let r ← (r.openBlock r.cursor.mark.column none .blockMappingStart r.cursor.mark).forgetPlace
  return { r.mark .key 1 with keyAllowed := !r.inFlow }

/-- The colon of a value. If a key may have started on this level, it did. -/
def readValue (r : Reader) : Except Problem Reader :=
  match r.places with
  | some place :: places =>
    let r := { r with
      places := none :: places
      tokens := r.tokens.insertIdxIfInBounds place.token ⟨.key, place.mark, place.mark⟩ }
    let r := r.openBlock place.mark.column (some place.token) .blockMappingStart place.mark
    .ok { r.mark .value 1 with keyAllowed := false }
  | _ =>
    if !r.inFlow && !r.keyAllowed then
      .error ⟨"mapping values are not allowed in this context", r.cursor.mark, none⟩
    else
      let r := r.openBlock r.cursor.mark.column none .blockMappingStart r.cursor.mark
      .ok { r.mark .value 1 with keyAllowed := !r.inFlow }

/-- A token that may be a key, read by `read`. -/
def readNode (r : Reader) (read : Cursor → Except Problem (Token × Cursor)) :
    Except Problem Reader := do
  let r ← r.rememberPlace
  let (token, cursor) ← read r.cursor
  return { r with cursor, keyAllowed := false, tokens := r.tokens.push token }

def readBlockScalar (r : Reader) (literal : Bool) : Except Problem Reader := do
  let r ← r.forgetPlace
  let (token, cursor) ← blockScalar literal r.indent r.cursor
  return { r with cursor, keyAllowed := true, tokens := r.tokens.push token }

def readPlainScalar (r : Reader) : Except Problem Reader := do
  let r ← r.rememberPlace
  let (token, cursor, brokeLine) ← plainScalar r.inFlow (r.indent + 1) r.cursor
  return { r with cursor, keyAllowed := brokeLine, tokens := r.tokens.push token }

/-- The characters that start something else than a plain scalar. -/
def isIndicator (c : Char) : Bool :=
  "-?:,[]#&*!|>'\"%@".toList.contains c || c == '\x7b' || c == '\x7d' || c == '\x60'

/-- Whether a plain scalar may start here: at no indicator, or at one that nothing could follow. -/
def startsPlain (flow : Bool) (cursor : Cursor) : Bool :=
  match cursor.head? with
  | none => false
  | some c =>
    let next := cursor.peek? 1
    (!isBlank c && !isBreak c && !isIndicator c)
      || (c == '-' && !(next.map isBlank).getD false)
      || (!flow && (c == '?' || c == ':') && !isGap next)

/-- The next token, at the cursor. -/
def readToken (r : Reader) : Except Problem Reader :=
  let cursor := r.cursor
  let flow := r.inFlow
  let gapNext := isGap (cursor.peek? 1)
  match cursor.head? with
  | none => r.endStream
  | some c =>
    if cursor.mark.column == 0 && c == '%' then r.readDirective
    else if cursor.atMarker '-' then r.readDocumentMarker .documentStart
    else if cursor.atMarker '.' then r.readDocumentMarker .documentEnd
    else if c == '[' then r.openFlow .flowSequenceStart
    else if c == '\x7b' then r.openFlow .flowMappingStart
    else if c == ']' then r.closeFlow .flowSequenceEnd
    else if c == '\x7d' then r.closeFlow .flowMappingEnd
    else if c == ',' then r.readFlowEntry
    else if c == '-' && gapNext then r.readBlockEntry
    else if c == '?' && (flow || gapNext) then r.readKey
    else if c == ':' && (flow || gapNext) then r.readValue
    else if c == '*' then r.readNode (anchorOrAlias true)
    else if c == '&' then r.readNode (anchorOrAlias false)
    else if c == '!' then r.readNode (tag flow)
    else if c == '|' && !flow then r.readBlockScalar true
    else if c == '>' && !flow then r.readBlockScalar false
    else if c == '\'' then r.readNode (quotedScalar true)
    else if c == '"' then r.readNode (quotedScalar false)
    else if startsPlain flow cursor then r.readPlainScalar
    else
      .error ⟨"found character that cannot start any token", cursor.mark,
        some "while scanning for the next token"⟩

/-- Passes the gap and reads the next token. -/
def step (r : Reader) : Except Problem Reader := do
  let (keyAllowed, cursor) := skipGap r.inFlow (r.cursor.rest.length + 1) r.keyAllowed r.cursor
  let r ← { r with cursor, keyAllowed }.forgetStale
  let r ← (r.closeBlocks cursor.mark.column).readToken
  r.forgetStale

/-! ## All tokens -/

/-- The number of the first token that may still turn out to be a key. -/
def firstPlace (r : Reader) : Nat :=
  r.places.foldl (fun n place => (place.map fun p => min n p.token).getD n) r.tokens.size

/-- Reads on to the end, or to a problem. -/
def run : Nat → Reader → List Token × Option Problem
  | 0, r => (r.tokens.toList, none)
  | fuel + 1, r =>
    if r.finished then (r.tokens.toList, none)
    else match r.step with
      | .ok r => run fuel r
      | .error problem => (r.tokens.toList.take r.firstPlace, some problem)

end Reader

/-- The first character that a text may not hold, as a problem. -/
def forbidden? : Nat → List Char → Option Problem
  | _, [] => none
  | bytes, c :: cs =>
    if isAllowed c then forbidden? (bytes + c.utf8Size) cs
    else
      let place := if bytes = 0 then "" else " at position " ++ toString bytes
      some ⟨"control characters are not allowed" ++ place, {}, none⟩

/-- The tokens of a text up to the first problem, if there is one. -/
def tokens (text : List Char) : List Token × Option Problem :=
  match forbidden? 0 text with
  | some problem => ([], some problem)
  | none => Reader.run (text.length + 2) { cursor := { rest := text } }

end ZoneScript.Yaml
