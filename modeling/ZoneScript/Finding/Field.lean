import ZoneScript.Finding.Basic
import ZoneScript.Keys

/-!
# Findings in the fields of a mapping

The checks that several kinds of mappings share: of their keys, and of fields with a scalar, a flag, a
priority or a list.
-/

namespace ZoneScript.Finding

/-! ## Values -/

/-- Whether a text waits for the value of a variable; what it will be is not known yet. -/
def isTemplated (text : String) : Bool :=
  Text.contains ['\x7b', '\x7b'] text.toList

/-- Checks a text that waits for no variable. -/
def value (path : String) (check : String → Lexical.Result Unit) (text : String) : List Finding :=
  if isTemplated text then []
  else match check text with
    | .ok _ => []
    | .error e => [⟨path, .badValue e⟩]

/-- Checks the port or the range of ports, without a protocol. -/
def portNumber (text : String) : Lexical.Result Unit :=
  (Lexical.portSpec text).map fun _ => ()

def portProtocol (text : String) : Lexical.Result Unit :=
  (Lexical.protocol text).map fun _ => ()

/-! ## Keys -/

/-- The keys that are not in the catalogue. -/
def keys (path : String) (valid : List String) (what : String) (entries : Node.Entries) :
    List Finding :=
  entries.filterMap fun (key, _) =>
    let name := key.keyName
    if valid.contains name then none
    else some ⟨childPath path name, .unknownKey what (Text.suggest name valid)⟩

/-- The keys that are missing. -/
def required (path : String) (wanted : List String) (what : String) (entries : Node.Entries) :
    List Finding :=
  (wanted.filter fun key => !Node.hasKey key entries).map fun key => ⟨path, .missingKey what key⟩

/-! ## Fields -/

/-- The findings in the value under a key, if there is one. -/
def field (path key : String) (entries : Node.Entries) (check : String → Node → List Finding) :
    List Finding :=
  match Node.find? key entries with
  | some node => check (childPath path key) node
  | none => []

/-- A scalar whose text passes the check. -/
def scalarNode (check : String → Lexical.Result Unit) (path : String) (node : Node) : List Finding :=
  match node.scalarText? with
  | some text => value path check text
  | none => [⟨path, .notScalar node.kindName⟩]

/-- A scalar field whose text passes the check. -/
def checked (path key : String) (check : String → Lexical.Result Unit) (entries : Node.Entries) :
    List Finding :=
  field path key entries (scalarNode check)

/-- A scalar field. -/
def scalar (path key : String) (entries : Node.Entries) : List Finding :=
  checked path key (fun _ => .ok ()) entries

def scalars (path : String) (keys : List String) (entries : Node.Entries) : List Finding :=
  keys.flatMap fun key => scalar path key entries

def flag (path key : String) (entries : Node.Entries) : List Finding :=
  field path key entries fun place node =>
    match node.untag with
    | .bool _ => []
    | _ => [⟨place, .notFlag node.kindName⟩]

/-- The name of the list that an item repeats for. -/
def loop (path : String) (entries : Node.Entries) : List Finding :=
  field path "loop" entries fun place node =>
    match node.untag with
    | .str _ => []
    | _ => [⟨place, .notLoopName node.kindName⟩]

/-- Whether a value can be a priority: an integer of 32 bits, or a text of one. -/
def isPriority : Node → Bool
  | .int n => Text.fitsSigned 32 n
  | .str s => (Text.readSigned? 32 (Text.trim s.toList)).isSome
  | _ => false

def priority (path : String) (entries : Node.Entries) : List Finding :=
  field path "priority" entries fun place node =>
    if isPriority node then []
    else
      let found := match node.scalarText? with
        | some text => "'" ++ text ++ "'"
        | none => node.kindName
      [⟨place, .notPriority found⟩]

/-! ## Lists and mappings -/

/-- The findings in each item of a list, counted from `index`. -/
def items (path : String) (check : String → Node → List Finding) : Nat → List Node → List Finding
  | _, [] => []
  | index, node :: nodes => check (itemPath path index) node ++ items path check (index + 1) nodes

/-- A field that holds a list. -/
def list (path key : String) (entries : Node.Entries) (check : String → Node → List Finding) :
    List Finding :=
  field path key entries fun place node =>
    match node with
    | .seq nodes => items place check 0 nodes
    | _ => [⟨place, .notList node.kindName⟩]

/-- A value that must be a mapping. -/
def mapping (what : String) (check : String → Node.Entries → List Finding) (path : String)
    (node : Node) : List Finding :=
  match node with
  | .map entries => check path entries
  | _ => [⟨path, .notMapping what node.kindName⟩]

end ZoneScript.Finding
