import ZoneScript.Config.PortSpec
import ZoneScript.Diagnostic
import ZoneScript.Lexical
import ZoneScript.Node
import ZoneScript.Text.Distance

/-!
# What a document gets wrong

The issues that a document can have, and where. An error is a shape that no configuration could take
in; everything else is a warning, and the document still means something.
-/

namespace ZoneScript

/-! ## Issues -/

/-- What is the matter at a place of a document. `found` is the kind of value that stands there. -/
inductive Issue where
  | unknownKey (what : String) (suggestion : Option String)
  | missingKey (what key : String)
  | badValue (error : LexicalError)
  | reservedVariable (name : String)
  | unreadRule (token : String)
  | noEffect
  | notDocument (found : String)
  | notMapping (what found : String)
  | notList (found : String)
  | notScalar (found : String)
  | notFlag (found : String)
  | notLoopName (found : String)
  | notPriority (found : String)
  | variableName
  | variableShape
  | zoneName
  | familyShape
  | valueItemShape (found : String)
  | portShape (found : String)
  | forwardPortShape (found : String)
  | badForwardPort (error : ForwardPortError)
  | richRuleShape (found : String)
  | groupPassthroughShape (found : String)
  deriving DecidableEq, Repr, Inhabited

namespace Issue

/-- Whether the document still means something. -/
def isWarning : Issue → Bool
  | .unknownKey .. | .missingKey .. | .badValue _ | .reservedVariable _ | .unreadRule _
  | .noEffect => true
  | _ => false

def message : Issue → String
  | .unknownKey what _ => "unknown " ++ what ++ " key"
  | .missingKey what key => what ++ " is missing '" ++ key ++ "'"
  | .badValue error => error.message
  | .reservedVariable name => "'" ++ name ++ "' is reserved and will be ignored"
  | .unreadRule token => "rich rule text not understood from '" ++ token ++ "'"
  | .noEffect => "rich rule has no action, log, audit or masquerade"
  | .notDocument found => "document must be a mapping, found " ++ found
  | .notMapping what found => what ++ " must be a mapping, found " ++ found
  | .notList found => "expected a list, found " ++ found
  | .notScalar found => "expected a scalar value, found " ++ found
  | .notFlag found => "expected true or false, found " ++ found
  | .notLoopName found => "loop must name a list variable, found " ++ found
  | .notPriority found => "priority must be an integer, found " ++ found
  | .variableName => "variable names must be strings"
  | .variableShape => "variable must be a scalar or a list of scalars"
  | .zoneName => "zone names must be strings"
  | .familyShape => "ipv entries must be scalars"
  | .valueItemShape found => "expected a string or \x7bvalue, loop\x7d, found " ++ found
  | .portShape found => "expected a port spec or mapping, found " ++ found
  | .forwardPortShape found => "expected a forward-port spec or mapping, found " ++ found
  | .badForwardPort error => error.message
  | .richRuleShape found => "expected a rule string or mapping, found " ++ found
  | .groupPassthroughShape found => "expected a string or mapping, found " ++ found

/-- The key that was perhaps meant. -/
def suggestion? : Issue → Option String
  | .unknownKey _ suggestion => suggestion
  | _ => none

end Issue

/-! ## Findings -/

/-- An issue and its place. -/
structure Finding where
  path : String
  issue : Issue
  deriving DecidableEq, Repr, Inhabited

def Finding.diagnostic (f : Finding) : Diagnostic :=
  ⟨f.path, f.issue.message, f.issue.suggestion?⟩

/-- The findings in a document, those that forbid its use apart from the others. -/
structure Validation where
  errors : List Diagnostic := []
  warnings : List Diagnostic := []
  deriving DecidableEq, Repr, Inhabited

def Validation.isOk (v : Validation) : Bool :=
  v.errors.isEmpty

def Validation.ofFindings (findings : List Finding) : Validation where
  errors := (findings.filter (!·.issue.isWarning)).map Finding.diagnostic
  warnings := (findings.filter (·.issue.isWarning)).map Finding.diagnostic

/-! ## Places -/

/-- The place of an entry. -/
def childPath (path key : String) : String :=
  if path.isEmpty then key else path ++ "." ++ key

/-- The place of an item. -/
def itemPath (path : String) (index : Nat) : String :=
  path ++ "[" ++ toString index ++ "]"

end ZoneScript
