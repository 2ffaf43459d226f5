import ZoneScript.Diagnostic
import ZoneScript.Ordered
import ZoneScript.Text.Split
import ZoneScript.Yaml.Event
import ZoneScript.Yaml.Scalar

/-!
# The document of a text

Builds the tree of a document from the events of its text. Aliases stand for the nodes they refer to,
mappings have every key once, and there are bounds on how deep nodes may nest and how often aliases may
be followed. A text holds one document at most; one without any holds null.

What is wrong with a value is found before what is wrong with the text behind it.
-/

namespace ZoneScript.Yaml

/-! ## Places in a document -/

/-- The way from the root of a document to a node. -/
inductive Path where
  | root
  | item (parent : Path) (index : Nat)
  | entry (parent : Path) (key : String)
  /-- The value of a key that is no scalar. -/
  | unnamed (parent : Path)
  deriving Repr, Inhabited

namespace Path

/-- What stands in front of the name of a key. -/
def stem (text : String) : Path → String
  | .root => ""
  | _ => text ++ "."

def text : Path → String
  | .root => "."
  | .item parent index => parent.text ++ "[" ++ toString index ++ "]"
  | .entry parent key => stem parent.text parent ++ key
  | .unnamed parent => stem parent.text parent ++ "?"

end Path

/-! ## Failures -/

/-- The failure at a mark. The message ends where it would name a line, since the line is given
apart from it. -/
def failAt (mark : Mark) (message : String) : Failure :=
  .parse (some (mark.line + 1)) (.ofList (Text.before " at line ".toList message.toList))

/-- The failure for what is wrong with the value at a path. -/
def failIn (path : Path) (mark : Mark) (message : String) : Failure :=
  failAt mark <| match path with
    | .root => message
    | _ => path.text ++ ": " ++ message

def Problem.failure (p : Problem) : Failure :=
  failAt p.mark p.message

def tooOften : Failure :=
  .parse none "repetition limit exceeded"

def severalDocuments : Failure :=
  .parse none "deserializing from YAML containing more than one document is not supported"

/-! ## The parts of a document -/

/-- A piece of a document. Aliases refer to anchors by number. -/
inductive Part where
  | alias (anchor : Nat)
  | scalar (tag : Option Tag) (text : String) (style : ScalarStyle)
  | sequenceStart (tag : Option Tag)
  | sequenceEnd
  | mappingStart (tag : Option Tag)
  | mappingEnd
  deriving DecidableEq, Repr, Inhabited

namespace Part

/-- The tag of a part. -/
def tag? : Part → Option Tag
  | .scalar tag .. | .sequenceStart tag | .mappingStart tag => tag
  | _ => none

/-- The text of a scalar part. -/
def text? : Part → Option String
  | .scalar _ text _ => some text
  | _ => none

end Part

/-- A document before its nodes are built: its parts, the part that each anchor stands for, and what
went wrong behind the last part. -/
structure Draft where
  parts : Array (Part × Mark) := #[]
  anchors : List (Nat × Nat) := []
  names : List (String × Nat) := []
  problem : Option Failure := none
  deriving Repr, Inhabited

namespace Draft

def add (d : Draft) (part : Part) (mark : Mark) : Draft :=
  { d with parts := d.parts.push (part, mark) }

/-- Sets the anchor of the next part. Its number is the count of the names so far. -/
def setAnchor (d : Draft) : Option String → Draft
  | none => d
  | some name =>
    let number := d.names.length
    { d with
      names := Ordered.insert name number d.names
      anchors := (number, d.parts.size) :: d.anchors }

/-- The first document of the events, and the events after it. -/
def ofEvents (ahead : Option Problem) : Draft → List Event → Draft × List Event
  | d, [] => ({ d with problem := ahead.map Problem.failure }, [])
  | d, event :: events =>
    match event.kind with
    | .documentStart => ofEvents ahead d events
    | .documentEnd => (d, events)
    | .streamEnd => (d, event :: events)
    | .alias name =>
      match Ordered.find? name d.names with
      | some number => ofEvents ahead (d.add (.alias number) event.mark) events
      | none => ({ d with problem := some (failAt event.mark "unknown anchor") }, events)
    | .scalar p text style =>
      ofEvents ahead ((d.setAnchor p.anchor).add (.scalar p.tag text style) event.mark) events
    | .sequenceStart p =>
      ofEvents ahead ((d.setAnchor p.anchor).add (.sequenceStart p.tag) event.mark) events
    | .mappingStart p =>
      ofEvents ahead ((d.setAnchor p.anchor).add (.mappingStart p.tag) event.mark) events
    | .sequenceEnd => ofEvents ahead (d.add .sequenceEnd event.mark) events
    | .mappingEnd => ofEvents ahead (d.add .mappingEnd event.mark) events

/-! ## Nodes -/

/-- How deep collections may nest. -/
def maxDepth : Nat := 128

/-- How often aliases may be followed. -/
def maxJumps (d : Draft) : Nat :=
  100 * d.parts.size

/-- The next part to read, and how many aliases were followed. -/
structure Position where
  index : Nat := 0
  jumps : Nat := 0
  deriving DecidableEq, Repr, Inhabited

abbrev Reading := StateT Position (Except Failure)

/-- The next part, which stays the next one. -/
def peek (d : Draft) : Reading (Part × Mark) := do
  match d.parts[(← get).index]? with
  | some part => return part
  | none => throw (d.problem.getD (.parse none "EOF while parsing a value"))

def advance : Reading Unit :=
  modify fun p => { p with index := p.index + 1 }

def duplicateMessage (key : Node) : String :=
  "duplicate entry " ++ match key with
    | .null => "with null key"
    | .bool b => "with key \x60" ++ Node.boolText b ++ "\x60"
    | .str s => "with key " ++ Text.quoted s
    | .seq _ | .map _ | .tagged _ _ => "in YAML map"
    | number => "with key " ++ number.scalarText?.getD ""

mutual

/-- The node at the position. Under `tagged`, its own tag has been read before. -/
def readNode (d : Draft) : Nat → Nat → Path → Bool → Reading Node
  | 0, _, _, _ => throw tooOften
  | fuel + 1, depth, path, tagged => do
    let (part, mark) ← d.peek
    match if tagged then none else part.tag?.bind Tag.ownName? with
    | some name => return .tagged name (← d.readNode fuel depth path true)
    | none =>
      advance
      match part with
      | .alias anchor =>
        let back ← get
        let jumps := back.jumps + 1
        if d.maxJumps < jumps then throw tooOften
        set { index := (d.anchors.lookup anchor).getD back.index, jumps : Position }
        let node ← d.readNode fuel depth path false
        modify fun p => { p with index := back.index }
        return node
      | .scalar tag text style =>
        match scalarMeaning (if tagged then none else tag) text style with
        | .ok node => return node
        | .error e => throw (failIn path mark e.message)
      | .sequenceStart _ =>
        if depth = 0 then throw (failAt mark "recursion limit exceeded")
        return .seq (← d.readItems fuel (depth - 1) path 0)
      | .mappingStart _ =>
        if depth = 0 then throw (failAt mark "recursion limit exceeded")
        return .map (← d.readEntries fuel (depth - 1) path mark [])
      | .sequenceEnd | .mappingEnd => return .null

/-- The items of a list, up to its end. -/
def readItems (d : Draft) : Nat → Nat → Path → Nat → Reading (List Node)
  | 0, _, _, _ => throw tooOften
  | fuel + 1, depth, path, index => do
    let (part, _) ← d.peek
    if part == .sequenceEnd then
      advance
      return []
    let item ← d.readNode fuel depth (.item path index) false
    return item :: (← d.readItems fuel depth path (index + 1))

/-- The entries of a mapping, up to its end; `start` is where it starts and `known` are the keys so
far. -/
def readEntries (d : Draft) :
    Nat → Nat → Path → Mark → List Node → Reading (List (Node × Node))
  | 0, _, _, _, _ => throw tooOften
  | fuel + 1, depth, path, start, known => do
    let (part, _) ← d.peek
    if part == .mappingEnd then
      advance
      return []
    let key ← d.readNode fuel depth path false
    if let some first := known.find? (·.same key) then
      throw (failIn path start (duplicateMessage first))
    let inside := match part.text? with
      | some text => .entry path text
      | none => .unnamed path
    let value ← d.readNode fuel depth inside false
    return (key, value) :: (← d.readEntries fuel depth path start (key :: known))

end

/-- The node of a draft. No walk through the parts is longer than between any two aliases. -/
def node (d : Draft) : Except Failure Node :=
  if d.parts.isEmpty && d.problem.isNone then .ok .null
  else
    (d.readNode (3 * (d.parts.size + 1) * (d.maxJumps + 2)) maxDepth .root false {}).map (·.1)

end Draft

/-! ## Texts -/

/-- The document that a text holds. -/
def load (text : String) : Except Failure Node := do
  let (events, ahead) := events text.toList
  let (draft, rest) := Draft.ofEvents ahead {} events
  let node ← draft.node
  match draft.problem, rest with
  | some failure, _ => throw failure
  | none, [⟨.streamEnd, _⟩] => return node
  | none, _ => throw severalDocuments

end ZoneScript.Yaml
