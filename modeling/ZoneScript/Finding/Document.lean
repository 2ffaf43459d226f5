import ZoneScript.Finding.Direct
import ZoneScript.Finding.Zone
import ZoneScript.Template.Token

/-!
# Findings in a document

Checks a whole document: its variables, its zones and its direct block. Where there is no error, the
document can be taken as a configuration.
-/

namespace ZoneScript

namespace Finding

def variableEntry (key value : Node) : List Finding :=
  match key.untag with
  | .str name =>
    let path := childPath "variables" name
    let shapeOk := match value with
      | .seq nodes => nodes.all (·.scalarText?.isSome)
      | _ => value.scalarText?.isSome
    (if Template.isReserved name then [⟨path, .reservedVariable name⟩] else [])
      ++ (if shapeOk then [] else [⟨path, .variableShape⟩])
  | _ => [⟨"variables", .variableName⟩]

/-- A zone without contents is no fault. -/
def zoneEntry (key value : Node) : List Finding :=
  match key.untag with
  | .str name =>
    match value.untag with
    | .null => []
    | _ => mapping "zone" zone (childPath "zones" name) value
  | _ => [⟨"zones", .zoneName⟩]

def zones (path : String) (node : Node) : List Finding :=
  match node.untag with
  | .null => []
  | _ => mapping "zones" (fun _ entries => entries.flatMap fun (k, v) => zoneEntry k v) path node

/-- The findings in a document, in the order in which it is read. -/
def ofDocument (document : Node) : List Finding :=
  match document with
  | .map entries =>
    keys "" Keys.topLevel "top-level" entries
      ++ field "" "variables" entries (mapping "variables" fun _ inner =>
        inner.flatMap fun (k, v) => variableEntry k v)
      ++ field "" "zones" entries zones
      ++ field "" "direct" entries (mapping "direct" direct)
  | _ => [⟨"", .notDocument document.kindName⟩]

end Finding

/-- Checks a document. -/
def Validation.ofDocument (document : Node) : Validation :=
  .ofFindings (Finding.ofDocument document)

end ZoneScript
