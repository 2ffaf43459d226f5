import ZoneScript.Double.Text
import ZoneScript.Text.Quoted

/-!
# Document trees

What a document holds once its text has been read: scalars, lists, mappings in the order of their
entries, and values under a tag. Keys may be any tree. Two trees are the same when they hold the same
values; the order of a mapping's entries does not matter for that.
-/

namespace ZoneScript

/-- A document tree. A tag is kept with its exclamation mark left out. -/
inductive Node where
  | null
  | bool (value : Bool)
  | int (value : Int)
  | float (value : Double)
  | str (value : String)
  | seq (items : List Node)
  | map (entries : List (Node × Node))
  | tagged (tag : String) (value : Node)
  deriving Repr, Inhabited

/-- The entries of a mapping, in order. -/
abbrev Node.Entries := List (Node × Node)

namespace Node

/-! ## Sameness -/

mutual

/-- Whether two trees hold the same values. -/
def same : Node → Node → Bool
  | .null, .null => true
  | .bool a, .bool b => a == b
  | .int a, .int b => a == b
  | .float a, .float b => a.same b
  | .str a, .str b => a == b
  | .seq as, .seq bs => sameItems as bs
  | .map as, .map bs => as.length == bs.length && sameEntries as bs
  | .tagged s a, .tagged t b => s == t && a.same b
  | _, _ => false

def sameItems : List Node → List Node → Bool
  | [], [] => true
  | a :: as, b :: bs => a.same b && sameItems as bs
  | _, _ => false

/-- Whether each entry of the first list is in the second. -/
def sameEntries : List (Node × Node) → List (Node × Node) → Bool
  | [], _ => true
  | (k, v) :: es, bs => sameEntry k v bs && sameEntries es bs

def sameEntry (k v : Node) : List (Node × Node) → Bool
  | [] => false
  | (l, w) :: bs => if k.same l then v.same w else sameEntry k v bs

end

/-! ## Looking up -/

/-- The value under a text key. -/
def find? (key : String) : Entries → Option Node
  | [] => none
  | (.str k, v) :: es => if k == key then some v else find? key es
  | _ :: es => find? key es

def hasKey (key : String) (entries : Entries) : Bool :=
  (find? key entries).isSome

/-! ## The text of a scalar -/

def boolText (b : Bool) : String :=
  if b then "true" else "false"

/-- The text of an integer. -/
def intText (n : Int) : String :=
  .ofList (Text.showInt n)

/-- The text of a scalar as a document would show it; lists, mappings, tagged values and null have
none. -/
def scalarText? : Node → Option String
  | .str s => some s
  | .int n => some (intText n)
  | .float x => some (.ofList x.markedText)
  | .bool b => some (boolText b)
  | _ => none

/-- The value under any tags. -/
def untag : Node → Node
  | .tagged _ value => untag value
  | node => node

/-! ## Naming a tree in messages -/

mutual

/-- A tree written out with the kind of each value. -/
def shown : Node → String
  | .null => "Null"
  | .bool b => "Bool(" ++ boolText b ++ ")"
  | .int n => "Number(" ++ intText n ++ ")"
  | .float x => "Number(" ++ .ofList x.markedText ++ ")"
  | .str s => "String(" ++ Text.quoted s ++ ")"
  | .seq items => "Sequence [" ++ ", ".intercalate (shownItems items) ++ "]"
  | .map entries => "Mapping \x7b" ++ ", ".intercalate (shownEntries entries) ++ "\x7d"
  | .tagged tag value => "TaggedValue \x7b tag: !" ++ tag ++ ", value: " ++ shown value ++ " \x7d"

def shownItems : List Node → List String
  | [] => []
  | item :: items => shown item :: shownItems items

def shownEntries : List (Node × Node) → List String
  | [] => []
  | (key, value) :: entries => (shownKey key ++ ": " ++ shown value) :: shownEntries entries

/-- The scalars among the keys show their kind by their form. -/
def shownKey : Node → String
  | .bool b => boolText b
  | .int n => intText n
  | .float x => .ofList x.markedText
  | .str s => Text.quoted s
  | key => shown key

end

/-- The name of a key: its text, or the whole tree if it is no scalar. -/
def keyName (key : Node) : String :=
  key.scalarText?.getD key.shown

/-- What kind of value a tree is, for messages. -/
def kindName : Node → String
  | .null => "null"
  | .bool _ => "a boolean"
  | .int _ | .float _ => "a number"
  | .str _ => "a string"
  | .seq _ => "a list"
  | .map _ => "a mapping"
  | .tagged _ _ => "a tagged value"

end Node

end ZoneScript
