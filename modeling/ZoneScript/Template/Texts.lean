import ZoneScript.Config.Basic
import ZoneScript.Text.Split

/-!
# The texts of a configuration

For each part of a configuration the texts in it that may hold tokens, in order, and the part with a
function applied to each of them. Loops are not among them: they name variables themselves.
-/

namespace ZoneScript

/-- What holds texts. -/
class HasTexts (α : Type) where
  /-- The texts, in order. -/
  texts : α → List String
  /-- The same with other texts. -/
  mapTexts : (String → String) → α → α

export HasTexts (texts mapTexts)

/-- An item that may stand for several. -/
class HasLoop (α : Type) extends HasTexts α where
  loop? : α → Option String
  withoutLoop : α → α

/-! ## Lists and optional parts -/

def textsOf {α : Type} [HasTexts α] (items : List α) : List String :=
  items.flatMap texts

/-! ## Items -/

instance : HasLoop ValueItem where
  texts item := [item.value]
  mapTexts f item := { item with value := f item.value }
  loop? := ValueItem.loop
  withoutLoop item := { item with loop := none }

/-- The port with what stands behind a slash in it as its protocol. -/
def PortItem.splitPort (item : PortItem) : PortItem :=
  match Text.splitFirst '/' item.port.toList with
  | some (port, protocol) => { item with port := .ofList port, protocol := .ofList protocol }
  | none => item

/-- A variable may hold a port and its protocol in one text. -/
instance : HasLoop PortItem where
  texts item := [item.port, item.protocol]
  mapTexts f item := { item with port := f item.port, protocol := f item.protocol }.splitPort
  loop? := PortItem.loop
  withoutLoop item := { item with loop := none }

instance : HasLoop ForwardPort where
  texts item := [item.port, item.protocol] ++ item.toPort.toList ++ item.toAddr.toList
  mapTexts f item :=
    { item with
      port := f item.port
      protocol := f item.protocol
      toPort := item.toPort.map f
      toAddr := item.toAddr.map f }
  loop? := ForwardPort.loop
  withoutLoop item := { item with loop := none }

/-! ## Rich rules -/

instance : HasTexts RichForwardPort where
  texts item := [item.port, item.protocol] ++ item.toPort.toList ++ item.toAddr.toList
  mapTexts f item := ⟨f item.port, f item.protocol, item.toPort.map f, item.toAddr.map f⟩

instance : HasTexts RichSourcePort where
  texts item := [item.port, item.protocol]
  mapTexts f item := ⟨f item.port, f item.protocol⟩

instance : HasTexts RichLog where
  texts log := log.label.toList ++ log.level.toList ++ log.limit.toList
  mapTexts f log := ⟨log.label.map f, log.level.map f, log.limit.map f⟩

instance : HasLoop RichRule where
  texts rule :=
    [rule.family, rule.source, rule.destination, rule.service, rule.port, rule.protocol,
      rule.icmpBlock, rule.icmpType].flatMap Option.toList
      ++ textsOf rule.forwardPort.toList ++ textsOf rule.sourcePort.toList ++ textsOf rule.log.toList
      ++ [rule.action, rule.rejectType, rule.markSet].flatMap Option.toList
  mapTexts f rule :=
    { rule with
      family := rule.family.map f
      source := rule.source.map f
      destination := rule.destination.map f
      service := rule.service.map f
      port := rule.port.map f
      protocol := rule.protocol.map f
      icmpBlock := rule.icmpBlock.map f
      icmpType := rule.icmpType.map f
      forwardPort := rule.forwardPort.map (mapTexts f)
      sourcePort := rule.sourcePort.map (mapTexts f)
      log := rule.log.map (mapTexts f)
      action := rule.action.map f
      rejectType := rule.rejectType.map f
      markSet := rule.markSet.map f }
  loop? := RichRule.loop
  withoutLoop rule := { rule with loop := none }

/-! ## Zones -/

instance : HasTexts Zone where
  texts zone :=
    zone.target.toList ++ textsOf zone.interfaces ++ textsOf zone.sources ++ textsOf zone.services
      ++ textsOf zone.ports ++ textsOf zone.protocols ++ textsOf zone.sourcePorts
      ++ textsOf zone.richRules ++ textsOf zone.forwardPorts ++ textsOf zone.icmpBlocks
  mapTexts f zone :=
    { zone with
      target := zone.target.map f
      interfaces := zone.interfaces.map (mapTexts f)
      sources := zone.sources.map (mapTexts f)
      services := zone.services.map (mapTexts f)
      ports := zone.ports.map (mapTexts f)
      protocols := zone.protocols.map (mapTexts f)
      sourcePorts := zone.sourcePorts.map (mapTexts f)
      richRules := zone.richRules.map (mapTexts f)
      forwardPorts := zone.forwardPorts.map (mapTexts f)
      icmpBlocks := zone.icmpBlocks.map (mapTexts f) }

/-! ## The direct block -/

instance : HasTexts DirectChain where
  texts chain := [chain.ipv, chain.table, chain.chain]
  mapTexts f chain := ⟨f chain.ipv, f chain.table, f chain.chain⟩

instance : HasLoop DirectRule where
  texts rule := [rule.ipv, rule.table, rule.chain, rule.args]
  mapTexts f rule :=
    { rule with
      ipv := f rule.ipv
      table := f rule.table
      chain := f rule.chain
      args := f rule.args }
  loop? := DirectRule.loop
  withoutLoop rule := { rule with loop := none }

instance : HasLoop Passthrough where
  texts item := [item.ipv, item.args]
  mapTexts f item := { item with ipv := f item.ipv, args := f item.args }
  loop? := Passthrough.loop
  withoutLoop item := { item with loop := none }

/-- Rule groups are not among the parts: their chains, rules and passthroughs are. -/
instance : HasTexts Direct where
  texts direct := textsOf direct.chains ++ textsOf direct.rules ++ textsOf direct.passthroughs
  mapTexts f direct :=
    { direct with
      chains := direct.chains.map (mapTexts f)
      rules := direct.rules.map (mapTexts f)
      passthroughs := direct.passthroughs.map (mapTexts f) }

end ZoneScript
