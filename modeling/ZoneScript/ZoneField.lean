import ZoneScript.Vocabulary

/-!
# The fields of a zone

One closed table says for each field of a zone which key a document writes it under, which flag a
command names it by, and what kind of value it holds. Scripts are written in the order of this table
and read back through it.
-/

namespace ZoneScript

/-- What a field of a zone holds. -/
inductive FieldKind where
  | target
  | toggle
  | values
  | ports
  | forwardPorts
  | richRules
  deriving DecidableEq, Repr, Inhabited

/-- The fields of a zone, in the order in which commands are written. -/
inductive ZoneField where
  | target
  | interfaces
  | sources
  | services
  | ports
  | protocols
  | sourcePorts
  | richRules
  | forward
  | masquerade
  | forwardPorts
  | icmpBlocks
  | icmpBlockInversion
  deriving DecidableEq, Repr, Inhabited

namespace ZoneField

def all : List ZoneField :=
  [.target, .interfaces, .sources, .services, .ports, .protocols, .sourcePorts, .richRules,
    .forward, .masquerade, .forwardPorts, .icmpBlocks, .icmpBlockInversion]

theorem mem_all (f : ZoneField) : f ∈ all := by
  cases f <;> simp [all]

/-- The key of the field in a document. -/
def key : ZoneField → String
  | .target => "target"
  | .interfaces => "interfaces"
  | .sources => "sources"
  | .services => "services"
  | .ports => "ports"
  | .protocols => "protocols"
  | .sourcePorts => "source_ports"
  | .richRules => "rich_rules"
  | .forward => "forward"
  | .masquerade => "masquerade"
  | .forwardPorts => "forward_ports"
  | .icmpBlocks => "icmp_blocks"
  | .icmpBlockInversion => "icmp_block_inversion"

/-- The name of the field's flag, without the verb in front. -/
def stem : ZoneField → String
  | .target => "target"
  | .interfaces => "interface"
  | .sources => "source"
  | .services => "service"
  | .ports => "port"
  | .protocols => "protocol"
  | .sourcePorts => "source-port"
  | .richRules => "rich-rule"
  | .forward => "forward"
  | .masquerade => "masquerade"
  | .forwardPorts => "forward-port"
  | .icmpBlocks => "icmp-block"
  | .icmpBlockInversion => "icmp-block-inversion"

def kind : ZoneField → FieldKind
  | .target => .target
  | .forward | .masquerade | .icmpBlockInversion => .toggle
  | .interfaces | .sources | .services | .protocols | .icmpBlocks => .values
  | .ports | .sourcePorts => .ports
  | .forwardPorts => .forwardPorts
  | .richRules => .richRules

/-- Whether a document holds the field as a list. -/
def isList (f : ZoneField) : Bool :=
  f.kind != .target && f.kind != .toggle

/-- Whether the field can be changed without `--permanent`. -/
def hasRuntimeForm (f : ZoneField) : Bool :=
  f != .target

def keys : Naming ZoneField := { all, name := key, mem_all }

def stems : Naming ZoneField := { all, name := stem, mem_all }

/-- The field that a document writes under this key. -/
abbrev ofKey? : String → Option ZoneField := keys.find?

/-- The field that a flag with this stem names. -/
abbrev ofStem? : String → Option ZoneField := stems.find?

theorem ofKey?_key (f : ZoneField) : ofKey? f.key = some f :=
  keys.find?_name f

theorem ofStem?_stem (f : ZoneField) : ofStem? f.stem = some f :=
  stems.find?_name f

end ZoneField

end ZoneScript
