import ZoneScript.Config.Merge
import ZoneScript.Script.LogicalLine
import ZoneScript.Script.Read
import ZoneScript.Text.Truncate

/-!
# Importing a script

Takes a script line by line and puts together what its lines say. A line that cannot be read is
reported, and the others still count.
-/

namespace ZoneScript.Script

/-! ## Putting fragments together -/

/-- The zone with the contents of another behind its own; repetitions stay. -/
def appendZone (zone more : Zone) : Zone where
  target := more.target.or zone.target
  interfaces := zone.interfaces ++ more.interfaces
  sources := zone.sources ++ more.sources
  services := zone.services ++ more.services
  ports := zone.ports ++ more.ports
  protocols := zone.protocols ++ more.protocols
  sourcePorts := zone.sourcePorts ++ more.sourcePorts
  richRules := zone.richRules ++ more.richRules
  forward := more.forward.or zone.forward
  masquerade := more.masquerade.or zone.masquerade
  forwardPorts := zone.forwardPorts ++ more.forwardPorts
  icmpBlocks := zone.icmpBlocks ++ more.icmpBlocks
  icmpBlockInversion := more.icmpBlockInversion.or zone.icmpBlockInversion

def appendDirect (direct more : Direct) : Direct :=
  { direct with
    chains := direct.chains ++ more.chains
    rules := direct.rules ++ more.rules
    passthroughs := direct.passthroughs ++ more.passthroughs }

/-- The configuration with a fragment behind it. -/
def absorb (config fragment : Config) : Config :=
  let config := fragment.zones.foldl (fun config (name, zone) =>
    config.alterZone name (appendZone · zone)) config
  match fragment.direct with
  | some more => { config with direct := some (appendDirect (config.direct.getD {}) more) }
  | none => config

/-! ## Imports -/

/-- A line that says nothing about the configuration. -/
structure SkippedLine where
  line : Nat
  text : String
  reason : SkipReason
  deriving DecidableEq, Repr, Inhabited

/-- A line that cannot be read. -/
structure FailedLine where
  line : Nat
  text : String
  error : LineError
  deriving DecidableEq, Repr, Inhabited

def FailedLine.display (f : FailedLine) : String :=
  "line " ++ toString f.line ++ ": " ++ f.error.message ++ " [" ++ f.text ++ "]"

/-- What a script says: the configuration, and the lines by what became of them. -/
structure Import where
  config : Config := {}
  errors : List FailedLine := []
  skipped : List SkippedLine := []
  parsed : List Nat := []
  deriving DecidableEq, Repr, Inhabited

/-- The greatest number of bytes of a line that a report shows. -/
def maxShownLine : Nat := 200

/-- A logical line as reports show it. -/
def LogicalLine.shown (line : LogicalLine) : String :=
  .ofList (Text.truncate maxShownLine (Text.trim line.text))

/-- The logical lines of a script with what each comes to. -/
def outcomes (defaultZone text : String) : List (LogicalLine × Outcome) :=
  (logicalLines text).map fun line => (line, outcome defaultZone line.text)

/-- The fragments in some outcomes. -/
def fragments (results : List (LogicalLine × Outcome)) : List Config :=
  results.filterMap fun
    | (_, .parsed fragment) => some fragment
    | _ => none

/-- The configuration that fragments come to: without repetitions, and with a direct block only if
there is something in it. -/
def ofFragments (fragments : List Config) : Config :=
  let config := (fragments.foldl absorb {}).dedup
  { config with direct := config.direct.filter fun direct => !direct.isEmpty }

namespace Import

def standardZone : String := "public"

/-- Imports a script. -/
def ofText (defaultZone text : String) : Import :=
  let results := outcomes defaultZone text
  { config := ofFragments (fragments results)
    errors := results.filterMap fun
      | (line, .failed error) => some ⟨line.number, line.shown, error⟩
      | _ => none
    skipped := results.filterMap fun
      | (line, .skipped reason) => some ⟨line.number, line.shown, reason⟩
      | _ => none
    parsed := results.filterMap fun
      | (line, .parsed _) => some line.number
      | _ => none }

end Import

end ZoneScript.Script
