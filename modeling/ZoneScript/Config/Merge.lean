import ZoneScript.Config.Basic
import ZoneScript.Distinct

/-!
# Merging configurations

Two configurations become one that holds what either of them holds. Lists are joined, the existing
items first, and repeated items are left out; items with different loops are different. Where there is
room for one value only, the incoming one wins. Variables are the exception: the document that is there
defines them, and a variable keeps its value. Rule groups are kept as they are written, since their
text is the work of a person.
-/

namespace ZoneScript

/-- The existing zone with the contents of the incoming one. -/
def Zone.merge (existing incoming : Zone) : Zone where
  target := incoming.target.or existing.target
  interfaces := distinct (existing.interfaces ++ incoming.interfaces)
  sources := distinct (existing.sources ++ incoming.sources)
  services := distinct (existing.services ++ incoming.services)
  ports := distinct (existing.ports ++ incoming.ports)
  protocols := distinct (existing.protocols ++ incoming.protocols)
  sourcePorts := distinct (existing.sourcePorts ++ incoming.sourcePorts)
  richRules := distinct (existing.richRules ++ incoming.richRules)
  forward := incoming.forward.or existing.forward
  masquerade := incoming.masquerade.or existing.masquerade
  forwardPorts := distinct (existing.forwardPorts ++ incoming.forwardPorts)
  icmpBlocks := distinct (existing.icmpBlocks ++ incoming.icmpBlocks)
  icmpBlockInversion := incoming.icmpBlockInversion.or existing.icmpBlockInversion

/-- The existing direct block with the contents of the incoming one. -/
def Direct.merge (existing incoming : Direct) : Direct where
  chains := distinct (existing.chains ++ incoming.chains)
  rules := distinct (existing.rules ++ incoming.rules)
  passthroughs := distinct (existing.passthroughs ++ incoming.passthroughs)
  ruleGroups := addNew existing.ruleGroups incoming.ruleGroups

/-- A direct block on either side is enough for one in the result. -/
def Direct.mergeOptional : Option Direct → Option Direct → Option Direct
  | none, none => none
  | some direct, none | none, some direct => some (direct.merge {})
  | some existing, some incoming => some (existing.merge incoming)

namespace Config

/-- Merges a list of named zones into another. -/
def mergeZones (existing incoming : List (String × Zone)) : List (String × Zone) :=
  let joined := incoming.foldl (fun zones (name, zone) =>
    Ordered.alter name (fun current => (current.getD {}).merge zone) zones) existing
  -- a zone that only one side has may repeat itself
  joined.map fun (name, zone) => (name, zone.merge {})

/-- The existing configuration with the contents of the incoming one. -/
def merge (existing incoming : Config) : Config where
  vars := incoming.vars.foldl (fun vars (name, value) =>
    Ordered.insertNew name value vars) existing.vars
  zones := mergeZones existing.zones incoming.zones
  direct := Direct.mergeOptional existing.direct incoming.direct

/-- The configuration without repeated items. -/
def dedup (config : Config) : Config :=
  config.merge {}

end Config

end ZoneScript
