/-!
# Findings and failures

A finding names a place in a document and what is the matter there, perhaps with the key that was
meant. A failure is what ends an operation: a text that cannot be read, a tree that no configuration
fits, or a file that cannot be read or written.
-/

namespace ZoneScript

/-- A finding. The place is a dotted path, such as `zones.public.ports[2]`; it may be empty. -/
structure Diagnostic where
  path : String
  message : String
  suggestion : Option String := none
  deriving DecidableEq, Repr, Inhabited

/-- The finding in one line. -/
def Diagnostic.display (d : Diagnostic) : String :=
  (if d.path.isEmpty then d.message else d.path ++ ": " ++ d.message)
    ++ match d.suggestion with
      | none => ""
      | some key => " (did you mean '" ++ key ++ "'?)"

/-- What ends an operation. -/
inductive Failure where
  /-- A text that is no document, with the line where reading stopped, if it is known. -/
  | parse (line : Option Nat) (message : String)
  /-- A tree that no configuration fits. -/
  | validation (field message : String)
  /-- A tree that a single value does not fit. -/
  | yaml (message : String)
  /-- A JSON text that does not fit. -/
  | json (message : String)
  /-- A file or stream that cannot be read or written. -/
  | io (message : String)
  deriving DecidableEq, Repr, Inhabited

namespace Failure

def message : Failure → String
  | .parse (some line) message => "Parse error at line " ++ toString line ++ ": " ++ message
  | .parse none message => "Parse error: " ++ message
  | .validation field message => "Validation error in " ++ field ++ ": " ++ message
  | .yaml message => "YAML error: " ++ message
  | .json message => "JSON error: " ++ message
  | .io message => "I/O error: " ++ message

/-- The failure as a finding. What has a place of its own keeps it. -/
def toDiagnostic : Failure → Diagnostic
  | .parse line message => { path := (line.map fun n => "line " ++ toString n).getD "", message }
  | .validation field message => { path := field, message }
  | failure => { path := "", message := failure.message }

end Failure

end ZoneScript
