import ZoneScript.Proofs.Documents
import ZoneScript.Proofs.TreeTokens

/-!
# Texts of configurations

The texts of a document are those of the configuration that it was written for, the names of loop variables
among them. To change the texts in the document is therefore to change them in the configuration.
-/

namespace ZoneScript

open Node Table Encode

/-! ## Other texts -/

section

variable (f : String → String)

def Variable.reworded : Variable → Variable
  | .scalar value => .scalar (f value)
  | .list items => .list (items.map f)

def ValueItem.reworded (item : ValueItem) : ValueItem where
  value := f item.value
  loop := item.loop.map f

def PortItem.reworded (item : PortItem) : PortItem where
  port := f item.port
  protocol := f item.protocol
  loop := item.loop.map f

def ForwardPort.reworded (item : ForwardPort) : ForwardPort where
  port := f item.port
  protocol := f item.protocol
  toPort := item.toPort.map f
  toAddr := item.toAddr.map f
  loop := item.loop.map f

def RichLog.reworded (log : RichLog) : RichLog where
  label := log.label.map f
  level := log.level.map f
  limit := log.limit.map f

def RichForwardPort.reworded (item : RichForwardPort) : RichForwardPort where
  port := f item.port
  protocol := f item.protocol
  toPort := item.toPort.map f
  toAddr := item.toAddr.map f

def RichSourcePort.reworded (item : RichSourcePort) : RichSourcePort where
  port := f item.port
  protocol := f item.protocol

def RichRule.reworded (rule : RichRule) : RichRule where
  family := rule.family.map f
  source := rule.source.map f
  sourceInvert := rule.sourceInvert
  destination := rule.destination.map f
  destinationInvert := rule.destinationInvert
  service := rule.service.map f
  port := rule.port.map f
  protocol := rule.protocol.map f
  icmpBlock := rule.icmpBlock.map f
  icmpType := rule.icmpType.map f
  masquerade := rule.masquerade
  forwardPort := rule.forwardPort.map (·.reworded f)
  sourcePort := rule.sourcePort.map (·.reworded f)
  log := rule.log.map (·.reworded f)
  audit := rule.audit
  action := rule.action.map f
  rejectType := rule.rejectType.map f
  markSet := rule.markSet.map f
  loop := rule.loop.map f

def Zone.reworded (zone : Zone) : Zone where
  target := zone.target.map f
  interfaces := zone.interfaces.map (·.reworded f)
  sources := zone.sources.map (·.reworded f)
  services := zone.services.map (·.reworded f)
  ports := zone.ports.map (·.reworded f)
  protocols := zone.protocols.map (·.reworded f)
  sourcePorts := zone.sourcePorts.map (·.reworded f)
  richRules := zone.richRules.map (·.reworded f)
  forward := zone.forward
  masquerade := zone.masquerade
  forwardPorts := zone.forwardPorts.map (·.reworded f)
  icmpBlocks := zone.icmpBlocks.map (·.reworded f)
  icmpBlockInversion := zone.icmpBlockInversion

def DirectChain.reworded (chain : DirectChain) : DirectChain where
  ipv := f chain.ipv
  table := f chain.table
  chain := f chain.chain

def DirectRule.reworded (rule : DirectRule) : DirectRule where
  ipv := f rule.ipv
  table := f rule.table
  chain := f rule.chain
  priority := rule.priority
  args := f rule.args
  loop := rule.loop.map f

def Passthrough.reworded (item : Passthrough) : Passthrough where
  ipv := f item.ipv
  args := f item.args
  loop := item.loop.map f

def GroupRule.reworded (rule : GroupRule) : GroupRule where
  priority := rule.priority
  args := f rule.args
  loop := rule.loop.map f

def GroupPassthrough.reworded (item : GroupPassthrough) : GroupPassthrough where
  args := f item.args
  loop := item.loop.map f

def RuleGroup.reworded (group : RuleGroup) : RuleGroup where
  ipv := group.ipv.map f
  table := f group.table
  chain := f group.chain
  priority := group.priority
  rules := group.rules.map (·.reworded f)
  passthroughs := group.passthroughs.map (·.reworded f)

def Direct.reworded (direct : Direct) : Direct where
  chains := direct.chains.map (·.reworded f)
  rules := direct.rules.map (·.reworded f)
  passthroughs := direct.passthroughs.map (·.reworded f)
  ruleGroups := direct.ruleGroups.map (·.reworded f)

/-- The configuration with other texts; the names of its variables and zones stay. -/
def Config.reworded (config : Config) : Config where
  vars := Ordered.mapValues (·.reworded f) config.vars
  zones := Ordered.mapValues (·.reworded f) config.zones
  direct := config.direct.map (·.reworded f)

end

/-! ## Entries with other texts -/

namespace Node

variable {f : String → String} {α : Type} {encode : α → Node} {g : α → α}

theorem mapItems_eq (items : List Node) : mapItems f items = items.map (mapTexts f) := by
  induction items with
  | nil => rfl
  | cons item items ih => rw [mapItems, ih, List.map_cons]

@[simp]
theorem mapEntries_nil : mapEntries f [] = [] :=
  rfl

@[simp]
theorem mapEntries_append (entries more : Entries) :
    mapEntries f (entries ++ more) = mapEntries f entries ++ mapEntries f more := by
  induction entries with
  | nil => rfl
  | cons entry entries ih => rw [List.cons_append, mapEntries, mapEntries, ih, List.cons_append]

@[simp]
theorem mapEntries_entry (key : String) (value : Node) (entries : Entries) :
    mapEntries f (entry key value :: entries) = entry key (value.mapTexts f) :: mapEntries f entries :=
  rfl

@[simp]
theorem mapEntries_optional (key : String) (text : Option String) :
    mapEntries f (optional key text) = optional key (text.map f) := by
  cases text <;> rfl

@[simp]
theorem mapEntries_switch (key : String) (b : Bool) : mapEntries f (switch key b) = switch key b := by
  cases b <;> rfl

@[simp]
theorem mapEntries_toggle (key : String) (b : Option Bool) : mapEntries f (toggle key b) = toggle key b := by
  cases b <;> rfl

theorem mapEntries_part (h : ∀ x, (encode x).mapTexts f = encode (g x)) (key : String) (x : Option α) :
    mapEntries f (part key encode x) = part key encode (x.map g) := by
  cases x with
  | none => rfl
  | some x => simp [part, h]

theorem mapEntries_list (h : ∀ x, (encode x).mapTexts f = encode (g x)) (key : String) (xs : List α) :
    mapEntries f (list key encode xs) = list key encode (xs.map g) := by
  cases xs with
  | nil => rfl
  | cons x xs => simp [list, mapTexts, mapItems_eq, h, Function.comp_def]

theorem mapEntries_ofFields (fields : List (String × Node)) :
    mapEntries f (ofFields fields) = ofFields (Ordered.mapValues (mapTexts f) fields) := by
  induction fields with
  | nil => rfl
  | cons field fields ih => rw [ofFields_cons, mapEntries, ih]; rfl

theorem mapEntries_namedMap (h : ∀ x, (encode x).mapTexts f = encode (g x)) (key : String)
    (es : List (String × α)) :
    mapEntries f (namedMap key encode es) = namedMap key encode (Ordered.mapValues g es) := by
  cases es with
  | nil => rfl
  | cons e es =>
    have hvalues : Ordered.mapValues (mapTexts f) (Ordered.mapValues encode (e :: es)) =
        Ordered.mapValues encode (Ordered.mapValues g (e :: es)) := by
      simp [Ordered.mapValues, h]
    rw [namedMap_eq, namedMap_eq]
    show mapEntries f [entry key (.map (ofFields (Ordered.mapValues encode (e :: es))))] = _
    rw [mapEntries_entry, mapTexts, mapEntries_ofFields, hvalues]
    rfl

end Node

/-! ## Trees with other texts -/

section

variable (f : String → String)

theorem mapTexts_texts (texts : List String) :
    (Node.seq (texts.map .str)).mapTexts f = .seq ((texts.map f).map .str) := by
  simp [mapTexts, mapItems_eq]

theorem mapTexts_templateVariable (v : Variable) :
    (Encode.templateVariable v).mapTexts f = Encode.templateVariable (v.reworded f) := by
  cases v with
  | scalar value => rfl
  | list items => exact mapTexts_texts f items

theorem mapTexts_valueItem (item : ValueItem) :
    (Encode.valueItem item).mapTexts f = Encode.valueItem (item.reworded f) := by
  obtain ⟨value, _ | loop⟩ := item <;> rfl

theorem mapTexts_portItem (item : PortItem) :
    (Encode.portItem item).mapTexts f = Encode.portItem (item.reworded f) := by
  simp [Encode.portItem, PortItem.reworded, mapTexts]

theorem mapTexts_forwardPort (item : ForwardPort) :
    (Encode.forwardPort item).mapTexts f = Encode.forwardPort (item.reworded f) := by
  simp [Encode.forwardPort, ForwardPort.reworded, mapTexts]

theorem mapTexts_richLog (log : RichLog) :
    (Encode.richLog log).mapTexts f = Encode.richLog (log.reworded f) := by
  simp [Encode.richLog, RichLog.reworded, mapTexts]

theorem mapTexts_richForwardPort (item : RichForwardPort) :
    (Encode.richForwardPort item).mapTexts f = Encode.richForwardPort (item.reworded f) := by
  simp [Encode.richForwardPort, RichForwardPort.reworded, mapTexts]

theorem mapTexts_richSourcePort (item : RichSourcePort) :
    (Encode.richSourcePort item).mapTexts f = Encode.richSourcePort (item.reworded f) :=
  rfl

theorem mapTexts_richRule (rule : RichRule) :
    (Encode.richRule rule).mapTexts f = Encode.richRule (rule.reworded f) := by
  have hforwardPort := mapEntries_part (mapTexts_richForwardPort f) "forward_port" rule.forwardPort
  have hsourcePort := mapEntries_part (mapTexts_richSourcePort f) "source_port" rule.sourcePort
  have hlog := mapEntries_part (mapTexts_richLog f) "log" rule.log
  simp [Encode.richRule, RichRule.reworded, mapTexts, hforwardPort, hsourcePort, hlog]

theorem mapTexts_zone (zone : Zone) : (Encode.zone zone).mapTexts f = Encode.zone (zone.reworded f) := by
  have hvalues := mapEntries_list (mapTexts_valueItem f)
  have hports := mapEntries_list (mapTexts_portItem f)
  have hrules := mapEntries_list (mapTexts_richRule f)
  have hforwardPorts := mapEntries_list (mapTexts_forwardPort f)
  simp [Encode.zone, Zone.reworded, mapTexts, hvalues, hports, hrules, hforwardPorts]

theorem mapTexts_directChain (chain : DirectChain) :
    (Encode.directChain chain).mapTexts f = Encode.directChain (chain.reworded f) :=
  rfl

theorem mapTexts_directRule (rule : DirectRule) :
    (Encode.directRule rule).mapTexts f = Encode.directRule (rule.reworded f) := by
  simp [Encode.directRule, DirectRule.reworded, mapTexts]

theorem mapTexts_passthrough (item : Passthrough) :
    (Encode.passthrough item).mapTexts f = Encode.passthrough (item.reworded f) := by
  simp [Encode.passthrough, Passthrough.reworded, mapTexts]

theorem mapEntries_priority (n : Option Int) :
    mapEntries f (part "priority" .int n) = part "priority" .int n := by
  cases n <;> rfl

theorem mapTexts_groupRule (rule : GroupRule) :
    (Encode.groupRule rule).mapTexts f = Encode.groupRule (rule.reworded f) := by
  simp [Encode.groupRule, GroupRule.reworded, mapTexts, mapEntries_priority]

theorem mapTexts_groupPassthrough (item : GroupPassthrough) :
    (Encode.groupPassthrough item).mapTexts f = Encode.groupPassthrough (item.reworded f) := by
  simp [Encode.groupPassthrough, GroupPassthrough.reworded, mapTexts]

theorem mapTexts_families (families : List String) :
    (Encode.families families).mapTexts f = Encode.families (families.map f) := by
  match families with
  | [] => rfl
  | [family] => rfl
  | _ :: _ :: _ => exact mapTexts_texts f _

theorem mapTexts_ruleGroup (group : RuleGroup) :
    (Encode.ruleGroup group).mapTexts f = Encode.ruleGroup (group.reworded f) := by
  have hrules := mapEntries_list (mapTexts_groupRule f)
  have hpassthroughs := mapEntries_list (mapTexts_groupPassthrough f)
  simp [Encode.ruleGroup, RuleGroup.reworded, mapTexts, mapTexts_families, mapEntries_priority, hrules,
    hpassthroughs]

theorem mapTexts_direct (direct : Direct) :
    (Encode.direct direct).mapTexts f = Encode.direct (direct.reworded f) := by
  have hchains := mapEntries_list (mapTexts_directChain f)
  have hrules := mapEntries_list (mapTexts_directRule f)
  have hpassthroughs := mapEntries_list (mapTexts_passthrough f)
  have hgroups := mapEntries_list (mapTexts_ruleGroup f)
  simp [Encode.direct, Direct.reworded, mapTexts, hchains, hrules, hpassthroughs, hgroups]

theorem mapTexts_toDocument (config : Config) :
    config.toDocument.mapTexts f = (config.reworded f).toDocument := by
  have hvars := mapEntries_namedMap (mapTexts_templateVariable f)
  have hzones := mapEntries_namedMap (mapTexts_zone f)
  have hdirect := mapEntries_part (mapTexts_direct f)
  simp [Config.toDocument, Config.reworded, mapTexts, hvars, hzones, hdirect]

end

end ZoneScript
