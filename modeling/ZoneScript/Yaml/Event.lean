import ZoneScript.Yaml.Reader

/-!
# The events of a text

An event is a step of a walk through the documents of a text: a scalar, an alias, or the start or the
end of a collection or of a document. The events follow from the tokens; what may come next is kept on
a stack, with the innermost open collection on top.
-/

namespace ZoneScript.Yaml

/-- The anchor and the tag in front of a node. -/
structure Properties where
  anchor : Option String := none
  tag : Option Tag := none
  deriving DecidableEq, Repr, Inhabited

inductive EventKind where
  | alias (name : String)
  | scalar (properties : Properties) (text : String) (style : ScalarStyle)
  | sequenceStart (properties : Properties)
  | sequenceEnd
  | mappingStart (properties : Properties)
  | mappingEnd
  | documentStart
  | documentEnd
  | streamEnd
  deriving DecidableEq, Repr, Inhabited

/-- An event with the mark where it starts. -/
structure Event where
  kind : EventKind
  mark : Mark
  deriving DecidableEq, Repr, Inhabited

/-- What may come next. -/
inductive Expected where
  /-- A document; only the first one may start without a marker. -/
  | document (first : Bool)
  /-- What stands behind the marker of a document. -/
  | content
  | documentEnd
  | blockNode
  /-- An item of a list in block style. -/
  | blockItem
  /-- An item of a list that is not indented deeper than the mapping around it. -/
  | bareItem
  | blockKey
  | blockValue
  | flowItem (first : Bool)
  /-- The key, the value and the end of a mapping of one entry, written as an item without braces. -/
  | pairKey
  | pairValue
  | pairEnd
  | flowKey (first : Bool)
  | flowValue
  /-- The value of a key without a colon. -/
  | missingValue
  deriving DecidableEq, Repr, Inhabited

/-- The state of the walk: the tokens that are left and the problem behind the last of them, what is
expected, and what the handles of tags stand for. -/
structure Walk where
  tokens : List Token
  ahead : Option Problem
  expected : List Expected := [.document true]
  handles : List (String × Tag) := []
  deriving Repr, Inhabited

/-- A step of the walk; it fails with a problem, or without one when no tokens are left. -/
abbrev Step (α : Type) := Except (Option Problem) α

namespace Walk

/-! ## Looking ahead -/

def fail {α : Type} (text : String) (mark : Mark) (doing : Option String := none) : Step α :=
  .error (some ⟨text, mark, doing⟩)

/-- The next token. -/
def peek (w : Walk) : Step Token :=
  match w.tokens with
  | token :: _ => .ok token
  | [] => .error w.ahead

/-- Passes the next token. -/
def advance (w : Walk) : Walk :=
  { w with tokens := w.tokens.drop 1 }

/-- Replaces what was expected. -/
def expect (w : Walk) (expected : List Expected) : Walk :=
  { w with expected := expected ++ w.expected.drop 1 }

/-- A scalar that is not written. -/
def emptyScalar (mark : Mark) (properties : Properties := {}) : Event :=
  ⟨.scalar properties "" .plain, mark⟩

/-! ## Nodes -/

/-- The handles that need no directive. -/
def commonHandles : List (String × Tag) :=
  [("!", .ofText "!"), ("!!", .ofText "tag:yaml.org,2002:")]

/-- The tag that a handle and a suffix write; an empty handle stands for nothing. -/
def resolveTag (w : Walk) (mark : Mark) (handle : String) (suffix : Tag) : Step Tag :=
  if handle.isEmpty then .ok suffix
  else match w.handles.lookup handle with
    | some replacement => .ok (replacement.append suffix)
    | none => fail "found undefined tag handle" mark (some "while parsing a node")

/-- The anchor and the tag at the next token, in either order. -/
def readProperties (w : Walk) : Step (Properties × Walk) := do
  let token ← w.peek
  match token.kind with
  | .anchor name =>
    let second ← w.advance.peek
    match second.kind with
    | .tag handle suffix =>
      let rest := w.advance.advance
      let _ ← rest.peek
      return (⟨some name, some (← w.resolveTag second.start handle suffix)⟩, rest)
    | _ => return (⟨some name, none⟩, w.advance)
  | .tag handle suffix =>
    let second ← w.advance.peek
    match second.kind with
    | .anchor name =>
      let rest := w.advance.advance
      let _ ← rest.peek
      return (⟨some name, some (← w.resolveTag token.start handle suffix)⟩, rest)
    | _ => return (⟨none, some (← w.resolveTag token.start handle suffix)⟩, w.advance)
  | _ => return ({}, w)

/-- The node at the next token. A list that is not indented counts only where `bare` holds, and the
collections of block style only where `block` does. Afterwards, `next` is expected. -/
def readNode (w : Walk) (block bare : Bool) (next : List Expected) : Step (Event × Walk) := do
  let first ← w.peek
  if let .alias name := first.kind then
    return (⟨.alias name, first.start⟩, w.advance.expect next)
  let (properties, w) ← w.readProperties
  let token ← w.peek
  let openWith (kind : EventKind) (inside : Expected) (w : Walk) : Step (Event × Walk) :=
    .ok (⟨kind, first.start⟩, w.expect (inside :: next))
  match token.kind, block with
  | .scalar text style, _ =>
    return (⟨.scalar properties text style, first.start⟩, w.advance.expect next)
  | .flowSequenceStart, _ => openWith (.sequenceStart properties) (.flowItem true) w.advance
  | .flowMappingStart, _ => openWith (.mappingStart properties) (.flowKey true) w.advance
  | .blockSequenceStart, true => openWith (.sequenceStart properties) .blockItem w.advance
  | .blockMappingStart, true => openWith (.mappingStart properties) .blockKey w.advance
  | kind, _ =>
    if bare && kind == .blockEntry then openWith (.sequenceStart properties) .bareItem w
    else if properties == {} then
      fail "did not find expected node content" token.start
        (some (if block then "while parsing a block node" else "while parsing a flow node"))
    else return (emptyScalar first.start properties, w.expect next)

/-- The node at the next token, or an empty scalar at `mark` if that token is one of `kinds`. -/
def readNodeUnless (w : Walk) (kinds : List TokenKind) (mark : Token → Mark) (block bare : Bool)
    (next : List Expected) : Step (Event × Walk) := do
  let token ← w.peek
  if kinds.contains token.kind then return (emptyScalar (mark token), w.expect next)
  else w.readNode block bare next

/-! ## Documents -/

/-- The directives in front of a document: the handles they declare. -/
def readDirectives :
    List Token → Bool → List (String × Tag) → Step (List (String × Tag) × List Token)
  | [], _, handles => .ok (handles, [])
  | token :: tokens, hasVersion, handles =>
    match token.kind with
    | .versionDirective major minor =>
      if hasVersion then fail "found duplicate %YAML directive" token.start
      else if major == 1 && (minor == 1 || minor == 2) then readDirectives tokens true handles
      else fail "found incompatible YAML document" token.start
    | .tagDirective handle replacement =>
      if (handles.lookup handle).isSome then fail "found duplicate %TAG directive" token.start
      else readDirectives tokens hasVersion (handles ++ [(handle, replacement)])
    | _ => .ok (handles, token :: tokens)

/-- Whether a token can only stand in front of the content of a document. -/
def opensDocument : TokenKind → Bool
  | .versionDirective .. | .tagDirective .. | .documentStart => true
  | _ => false

/-- The start of a document with a marker, or the end of the text. -/
def readMarkedDocument (w : Walk) : Step (Event × Walk) := do
  let token ← w.peek
  if token.kind == .streamEnd then return (⟨.streamEnd, token.start⟩, w.advance.expect [])
  let (handles, tokens) ← readDirectives w.tokens false []
  let w := { w with tokens, handles := handles ++ commonHandles }
  let marker ← w.peek
  if marker.kind == .documentStart then
    return (⟨.documentStart, token.start⟩, w.advance.expect [.content, .documentEnd])
  else fail "did not find expected <document start>" marker.start

def readDocument (w : Walk) (first : Bool) : Step (Event × Walk) :=
  if first then do
    let token ← w.peek
    if opensDocument token.kind || token.kind == .streamEnd then w.readMarkedDocument
    else
      return (⟨.documentStart, token.start⟩,
        { w with handles := commonHandles }.expect [.blockNode, .documentEnd])
  else
    let tokens := w.tokens.dropWhile fun token => token.kind == TokenKind.documentEnd
    { w with tokens }.readMarkedDocument

/-! ## One event -/

/-- The node after a key or a colon in block style; what `kinds` lists leaves it out. -/
def readAfter (w : Walk) (mark : Token) (kinds : List TokenKind) (next : List Expected) :
    Step (Event × Walk) :=
  w.readNodeUnless kinds (fun _ => mark.stop) true true next

/-- The next event of the walk where `expected` comes next. -/
def eventAt (w : Walk) (token : Token) : Expected → Step (Event × Walk)
  | .document first => w.readDocument first
  | .content =>
    if opensDocument token.kind || token.kind == .documentEnd || token.kind == .streamEnd then
      .ok (emptyScalar token.start, w.expect [])
    else w.readNode true false []
  | .documentEnd =>
    let rest := if token.kind == .documentEnd then w.advance else w
    .ok (⟨.documentEnd, token.start⟩, { rest with handles := [] }.expect [.document false])
  | .blockNode => w.readNode true false []
  | .blockItem =>
    match token.kind with
    | .blockEntry =>
      w.advance.readNodeUnless [.blockEntry, .blockEnd] (fun _ => token.stop) true false [.blockItem]
    | .blockEnd => .ok (⟨.sequenceEnd, token.start⟩, w.advance.expect [])
    | _ =>
      fail "did not find expected '-' indicator" token.start (some "while parsing a block collection")
  | .bareItem =>
    if token.kind == .blockEntry then
      w.advance.readNodeUnless [.blockEntry, .key, .value, .blockEnd] (fun _ => token.stop) true false
        [.bareItem]
    else .ok (⟨.sequenceEnd, token.start⟩, w.expect [])
  | .blockKey =>
    match token.kind with
    | .key => w.advance.readAfter token [.key, .value, .blockEnd] [.blockValue]
    | .blockEnd => .ok (⟨.mappingEnd, token.start⟩, w.advance.expect [])
    | _ => fail "did not find expected key" token.start (some "while parsing a block mapping")
  | .blockValue =>
    if token.kind == .value then w.advance.readAfter token [.key, .value, .blockEnd] [.blockKey]
    else .ok (emptyScalar token.start, w.expect [.blockKey])
  | .flowItem first =>
    if token.kind == .flowSequenceEnd then .ok (⟨.sequenceEnd, token.start⟩, w.advance.expect [])
    else do
      if !first && token.kind != .flowEntry then
        fail "did not find expected ',' or ']'" token.start (some "while parsing a flow sequence")
      let w := if first then w else w.advance
      let token ← w.peek
      match token.kind with
      | .key => return (⟨.mappingStart {}, token.start⟩, w.advance.expect [.pairKey, .flowItem false])
      | .flowSequenceEnd => return (⟨.sequenceEnd, token.start⟩, w.advance.expect [])
      | _ => w.readNode false false [.flowItem false]
  | .pairKey =>
    match token.kind with
    | .value | .flowEntry | .flowSequenceEnd =>
      .ok (emptyScalar token.stop, w.advance.expect [.pairValue])
    | _ => w.readNode false false [.pairValue]
  | .pairValue =>
    if token.kind == .value then
      w.advance.readNodeUnless [.flowEntry, .flowSequenceEnd] (·.start) false false [.pairEnd]
    else .ok (emptyScalar token.start, w.expect [.pairEnd])
  | .pairEnd => .ok (⟨.mappingEnd, token.start⟩, w.expect [])
  | .flowKey first =>
    if token.kind == .flowMappingEnd then .ok (⟨.mappingEnd, token.start⟩, w.advance.expect [])
    else do
      if !first && token.kind != .flowEntry then
        fail "did not find expected ',' or '\x7d'" token.start (some "while parsing a flow mapping")
      let w := if first then w else w.advance
      let token ← w.peek
      match token.kind with
      | .key =>
        w.advance.readNodeUnless [.value, .flowEntry, .flowMappingEnd] (·.start) false false
          [.flowValue]
      | .flowMappingEnd => return (⟨.mappingEnd, token.start⟩, w.advance.expect [])
      | _ => w.readNode false false [.missingValue]
  | .flowValue =>
    if token.kind == .value then
      w.advance.readNodeUnless [.flowEntry, .flowMappingEnd] (·.start) false false [.flowKey false]
    else .ok (emptyScalar token.start, w.expect [.flowKey false])
  | .missingValue => .ok (emptyScalar token.start, w.expect [.flowKey false])

/-- The next event. -/
def step (w : Walk) : Step (Event × Walk) := do
  let token ← w.peek
  match w.expected with
  | expected :: _ => w.eventAt token expected
  | [] => throw none

/-- Walks on to the end, or to a problem. -/
def run : Nat → Walk → List Event × Option Problem
  | 0, _ => ([], none)
  | fuel + 1, w =>
    match w.step with
    | .error problem => ([], problem)
    | .ok (event, w) =>
      let (events, problem) := run fuel w
      (event :: events, problem)

end Walk

/-- The events of a text up to the first problem, if there is one. A token brings at most three
events. -/
def events (text : List Char) : List Event × Option Problem :=
  let (tokens, ahead) := tokens text
  Walk.run (4 * tokens.length + 8) { tokens, ahead }

end ZoneScript.Yaml
