import ZoneScript.Proofs.Additions
import ZoneScript.Proofs.MergeLaws
import ZoneScript.Proofs.RoundTrip

/-!
# The normal form of imports

Whatever text is imported, the configuration has no variables, loops and rule groups, no empty names
and values, no repetitions, and ports and rich rules as their texts are read. In this form there is
nothing to leave out and nothing to expand.
-/

namespace ZoneScript

open Text

/-! ## Items as they are read -/

namespace ForwardPort

/-- A forward port as it is read. -/
structure IsRead (item : ForwardPort) : Prop where
  loop : item.loop = none
  port : item.port ≠ ""

theorem isRead_of_ofSpec? {spec : String} {item : ForwardPort} (h : ofSpec? spec = .ok item) :
    item.IsRead :=
  have hliteral := isLiteral_of_ofSpec? h
  ⟨hliteral.loop, hliteral.port_ne⟩

end ForwardPort

namespace RichRule

/-- A rich rule as it is read. -/
structure IsRead (rule : RichRule) : Prop where
  loop : rule.loop = none
  element : rule.elements.count true ≤ 1
  protocol : rule.port.isSome → rule.protocol.isSome
  rejectType : rule.rejectType.isSome → rule.action = some "reject"
  markSet : rule.markSet.isSome → rule.action = some "mark"

theorem count_elements_eq_zero {rule : RichRule} (h : rule.elements.count true = 0) :
    rule.service = none ∧ rule.port = none ∧ rule.protocol = none ∧ rule.icmpBlock = none ∧
      rule.icmpType = none ∧ rule.masquerade = false ∧ rule.forwardPort = none ∧
      rule.sourcePort = none := by
  simpa [elements, List.count_eq_zero, and_assoc] using h

theorem isRead_eatElement {rule : RichRule} (hloop : rule.loop = none)
    (hnone : rule.elements.count true = 0) (hreject : rule.rejectType = none)
    (hmark : rule.markSet = none) (ws : List String) : (eatElement rule ws).1.IsRead := by
  obtain ⟨hservice, hport, hprotocol, hblock, htype, hmasquerade, hforward, hsource⟩ :=
    count_elements_eq_zero hnone
  have hread {next : RichRule} (hloop' : next.loop = rule.loop)
      (hreject' : next.rejectType = rule.rejectType) (hmark' : next.markSet = rule.markSet)
      (helement : next.elements.count true ≤ 1) (hprotocol : next.port.isSome → next.protocol.isSome) :
      next.IsRead :=
    ⟨hloop'.trans hloop, helement, hprotocol, by simp [hreject', hreject], by simp [hmark', hmark]⟩
  have hempty : rule.IsRead := hread rfl rfl rfl (hnone ▸ Nat.zero_le 1) (by simp [hport])
  fun_cases eatElement rule ws with
  | case1 => exact hempty
  | case2 ws name rest hname =>
    refine hread rfl rfl rfl ?_ (by simp [hport])
    cases name <;>
      simp [elements, hport, hprotocol, hblock, htype, hmasquerade, hforward, hsource]
  | case3 ws port protocol rest hpair =>
    refine hread rfl rfl rfl ?_ (by simp)
    simp [elements, hservice, hblock, htype, hmasquerade, hforward, hsource]
  | case4 ws value rest hvalue =>
    refine hread rfl rfl rfl ?_ (by simp [hport])
    cases value <;>
      simp [elements, hservice, hport, hblock, htype, hmasquerade, hforward, hsource]
  | case5 ws name rest hname =>
    refine hread rfl rfl rfl ?_ (by simp [hport])
    cases name <;>
      simp [elements, hservice, hport, hprotocol, htype, hmasquerade, hforward, hsource]
  | case6 ws name rest hname =>
    refine hread rfl rfl rfl ?_ (by simp [hport])
    cases name <;>
      simp [elements, hservice, hport, hprotocol, hblock, hmasquerade, hforward, hsource]
  | case7 ws =>
    refine hread rfl rfl rfl ?_ (by simp [hport])
    simp [elements, hservice, hport, hprotocol, hblock, htype, hforward, hsource]
  | case8 =>
    refine hread rfl rfl rfl ?_ (by simp [hport])
    simp [elements, hservice, hport, hprotocol, hblock, htype, hmasquerade, hsource]
  | case9 =>
    refine hread rfl rfl rfl ?_ (by simp [hport])
    simp [elements, hservice, hport, hprotocol, hblock, htype, hmasquerade, hforward]
  | case10 => exact hempty

theorem eatElement_action (rule : RichRule) (ws : List String) :
    (eatElement rule ws).1.rejectType = rule.rejectType ∧
      (eatElement rule ws).1.markSet = rule.markSet := by
  fun_cases eatElement rule ws <;> exact ⟨rfl, rfl⟩

theorem IsRead.eatAction {rule : RichRule} (h : rule.IsRead) (hreject : rule.rejectType = none)
    (hmark : rule.markSet = none) (ws : List String) : (eatAction rule ws).1.IsRead := by
  fun_cases RichRule.eatAction rule ws with
  | case1 => exact h
  | case2 ws => exact ⟨h.loop, h.element, h.protocol, by simp [hreject], by simp [hmark]⟩
  | case3 ws => exact ⟨h.loop, h.element, h.protocol, by simp [hreject], by simp [hmark]⟩
  | case4 ws type rest htype => exact ⟨h.loop, h.element, h.protocol, fun _ => rfl, by simp [hmark]⟩
  | case5 ws mark rest hset => exact ⟨h.loop, h.element, h.protocol, by simp [hreject], fun _ => rfl⟩
  | case6 => exact h

theorem isRead_ofWords (ws : List String) : (ofWords ws).1.IsRead := by
  rw [ofWords]
  dsimp only
  set front := eatElement _ _ with hfront
  -- before the element only the addresses and the family are known
  have hread : front.1.IsRead := isRead_eatElement rfl rfl rfl rfl _
  have hnone : front.1.rejectType = none ∧ front.1.markSet = none := eatElement_action _ _
  apply IsRead.eatAction
  · exact ⟨hread.loop, hread.element, hread.protocol, hread.rejectType, hread.markSet⟩
  · exact hnone.1
  · exact hnone.2

theorem isRead_ofText (text : String) : (ofText text).IsRead :=
  isRead_ofWords _

end RichRule

open Script Ordered Template

/-! ## Zones -/

namespace Zone

/-- A zone as it is read. -/
structure IsRead (zone : Zone) : Prop where
  target : ∀ target ∈ zone.target, target ≠ ""
  values f : ∀ item ∈ (zone.values? f).getD [], item.IsLiteral
  ports f : ∀ item ∈ (zone.ports? f).getD [], item.IsLiteral
  forwardPorts : ∀ item ∈ zone.forwardPorts, item.IsRead
  richRules : ∀ rule ∈ zone.richRules, rule.IsRead

theorem isRead_empty : ({} : Zone).IsRead where
  target := by simp
  values f := by cases f <;> simp [values?]
  ports f := by cases f <;> simp [ports?]
  forwardPorts := by simp
  richRules := by simp

theorem values?_appendZone (zone more : Zone) (f : ZoneField) :
    ((appendZone zone more).values? f).getD [] =
      (zone.values? f).getD [] ++ (more.values? f).getD [] := by
  cases f <;> rfl

theorem ports?_appendZone (zone more : Zone) (f : ZoneField) :
    ((appendZone zone more).ports? f).getD [] =
      (zone.ports? f).getD [] ++ (more.ports? f).getD [] := by
  cases f <;> rfl

theorem values?_dedup (zone : Zone) (f : ZoneField) :
    (zone.dedup.values? f).getD [] = distinct ((zone.values? f).getD []) := by
  rw [dedup, values?_merge]
  cases f <;> simp [values?]

theorem ports?_dedup (zone : Zone) (f : ZoneField) :
    (zone.dedup.ports? f).getD [] = distinct ((zone.ports? f).getD []) := by
  rw [dedup, ports?_merge]
  cases f <;> simp [ports?]

theorem forwardPorts_dedup (zone : Zone) : zone.dedup.forwardPorts = distinct zone.forwardPorts :=
  congrArg distinct (List.append_nil _)

theorem richRules_dedup (zone : Zone) : zone.dedup.richRules = distinct zone.richRules :=
  congrArg distinct (List.append_nil _)

namespace IsRead

variable {zone more : Zone}

theorem setToggle (h : zone.IsRead) (f : ZoneField) (on : Bool) : (zone.setToggle f on).IsRead := by
  obtain ⟨htarget, hvalues, hports, hforwardPorts, hrichRules⟩ := h
  cases f <;> exact ⟨htarget, hvalues, hports, hforwardPorts, hrichRules⟩

theorem addValue (h : zone.IsRead) (f : ZoneField) {item : ValueItem} (hitem : item.IsLiteral) :
    (zone.addValue f item).IsRead where
  target := by cases f <;> exact h.target
  values g := by
    by_cases hfield : g = f
    · subst hfield
      rw [values?_addValue]
      cases hitems : zone.values? g with
      | none => simp
      | some items =>
        have hg := h.values g
        rw [hitems] at hg
        exact List.forall_mem_append.mpr ⟨hg, by simpa using hitem⟩
    · rw [values?_addValue_of_ne hfield]
      exact h.values g
  ports := by cases f <;> exact h.ports
  forwardPorts := by cases f <;> exact h.forwardPorts
  richRules := by cases f <;> exact h.richRules

theorem addPort (h : zone.IsRead) (f : ZoneField) {item : PortItem} (hitem : item.IsLiteral) :
    (zone.addPort f item).IsRead where
  target := by cases f <;> exact h.target
  values := by cases f <;> exact h.values
  ports g := by
    by_cases hfield : g = f
    · subst hfield
      rw [ports?_addPort]
      cases hitems : zone.ports? g with
      | none => simp
      | some items =>
        have hg := h.ports g
        rw [hitems] at hg
        exact List.forall_mem_append.mpr ⟨hg, by simpa using hitem⟩
    · rw [ports?_addPort_of_ne hfield]
      exact h.ports g
  forwardPorts := by cases f <;> exact h.forwardPorts
  richRules := by cases f <;> exact h.richRules

theorem enters {z : Zone} {f : ZoneField} {value : Option String} (h : zone.IsRead)
    (henters : Enters zone f value z) : z.IsRead := by
  cases henters with
  | toggle => exact h.setToggle f true
  | value _ hne => exact h.addValue f ⟨rfl, hne⟩
  | port => exact h.addPort f (PortItem.isLiteral_ofSpec _)
  | forwardPort _ _ hitem =>
    have hread := ForwardPort.isRead_of_ofSpec? hitem
    refine ⟨h.target, h.values, h.ports, ?_, h.richRules⟩
    exact List.forall_mem_append.mpr ⟨h.forwardPorts, by simpa using hread⟩
  | richRule =>
    refine ⟨h.target, h.values, h.ports, h.forwardPorts, ?_⟩
    exact List.forall_mem_append.mpr ⟨h.richRules, by simpa using RichRule.isRead_ofText _⟩

theorem append (h : zone.IsRead) (k : more.IsRead) : (appendZone zone more).IsRead where
  target target htarget :=
    (Option.or_eq_some_iff.mp htarget).elim (k.target target) fun hzone => h.target target hzone.2
  values f := by
    rw [values?_appendZone]
    exact List.forall_mem_append.mpr ⟨h.values f, k.values f⟩
  ports f := by
    rw [ports?_appendZone]
    exact List.forall_mem_append.mpr ⟨h.ports f, k.ports f⟩
  forwardPorts := List.forall_mem_append.mpr ⟨h.forwardPorts, k.forwardPorts⟩
  richRules := List.forall_mem_append.mpr ⟨h.richRules, k.richRules⟩

theorem dedup (h : zone.IsRead) : zone.dedup.IsRead where
  target := h.target
  values f item hitem := by
    rw [values?_dedup, mem_distinct] at hitem
    exact h.values f item hitem
  ports f item hitem := by
    rw [ports?_dedup, mem_distinct] at hitem
    exact h.ports f item hitem
  forwardPorts item hitem := by
    rw [forwardPorts_dedup, mem_distinct] at hitem
    exact h.forwardPorts item hitem
  richRules rule hrule := by
    rw [richRules_dedup, mem_distinct] at hrule
    exact h.richRules rule hrule

theorem isExpanded (h : zone.IsRead) : zone.IsExpanded where
  interfaces item hitem := (h.values .interfaces item hitem).loop
  sources item hitem := (h.values .sources item hitem).loop
  services item hitem := (h.values .services item hitem).loop
  ports item hitem := (h.ports .ports item hitem).loop
  protocols item hitem := (h.values .protocols item hitem).loop
  sourcePorts item hitem := (h.ports .sourcePorts item hitem).loop
  richRules rule hrule := (h.richRules rule hrule).loop
  forwardPorts item hitem := (h.forwardPorts item hitem).loop
  icmpBlocks item hitem := (h.values .icmpBlocks item hitem).loop
  split := List.forall_mem_append.mpr
    ⟨fun item hitem => (h.ports .ports item hitem).slash,
      fun item hitem => (h.ports .sourcePorts item hitem).slash⟩

end IsRead

theorem Made.isRead {zone : Zone} (h : zone.Made) : zone.IsRead := by
  induction h with
  | empty => exact isRead_empty
  | target h hne ih => exact { ih with target := by simpa using hne }
  | entry h henters ih => exact ih.enters henters
  | append h k ih ik => exact ih.append ik
  | dedup h ih => exact ih.dedup

/-- A zone without repetitions. -/
structure IsDistinct (zone : Zone) : Prop where
  values f : ((zone.values? f).getD []).Nodup
  ports f : ((zone.ports? f).getD []).Nodup
  forwardPorts : zone.forwardPorts.Nodup
  richRules : zone.richRules.Nodup

theorem isDistinct_dedup (zone : Zone) : zone.dedup.IsDistinct where
  values f := values?_dedup zone f ▸ nodup_distinct _
  ports f := ports?_dedup zone f ▸ nodup_distinct _
  forwardPorts := nodup_distinct _
  richRules := nodup_distinct _

theorem dedup_of_isDistinct {zone : Zone} (h : zone.IsDistinct) : zone.dedup = zone := by
  have hinterfaces : distinct zone.interfaces = zone.interfaces :=
    distinct_of_nodup (h.values .interfaces)
  have hsources : distinct zone.sources = zone.sources := distinct_of_nodup (h.values .sources)
  have hservices : distinct zone.services = zone.services := distinct_of_nodup (h.values .services)
  have hports : distinct zone.ports = zone.ports := distinct_of_nodup (h.ports .ports)
  have hprotocols : distinct zone.protocols = zone.protocols :=
    distinct_of_nodup (h.values .protocols)
  have hsourcePorts : distinct zone.sourcePorts = zone.sourcePorts :=
    distinct_of_nodup (h.ports .sourcePorts)
  have hicmpBlocks : distinct zone.icmpBlocks = zone.icmpBlocks :=
    distinct_of_nodup (h.values .icmpBlocks)
  simp [dedup, merge, hinterfaces, hsources, hservices, hports, hprotocols, hsourcePorts,
    hicmpBlocks, distinct_of_nodup h.forwardPorts, distinct_of_nodup h.richRules]

end Zone

/-! ## Direct blocks -/

namespace Direct

/-- A direct block as it is read. -/
structure IsRead (direct : Direct) : Prop where
  rules : IsUnrolled direct.rules
  passthroughs : IsUnrolled direct.passthroughs
  ruleGroups : direct.ruleGroups = []

theorem Made.isRead {direct : Direct} (h : direct.Made) : direct.IsRead := by
  induction h with
  | empty => exact ⟨by simp [IsUnrolled], by simp [IsUnrolled], rfl⟩
  | mention h =>
    cases h with
    | chain => exact ⟨by simp [IsUnrolled], by simp [IsUnrolled], rfl⟩
    | rule => exact ⟨by simp [IsUnrolled, HasLoop.loop?], by simp [IsUnrolled], rfl⟩
    | passthrough => exact ⟨by simp [IsUnrolled], by simp [IsUnrolled, HasLoop.loop?], rfl⟩
  | append h k ih ik =>
    exact ⟨List.forall_mem_append.mpr ⟨ih.rules, ik.rules⟩,
      List.forall_mem_append.mpr ⟨ih.passthroughs, ik.passthroughs⟩, ih.ruleGroups⟩
  | dedup h ih =>
    refine ⟨fun rule hrule => ih.rules rule ?_, fun item hitem => ih.passthroughs item ?_,
      ih.ruleGroups⟩
    · simpa [Direct.dedup, Direct.merge] using hrule
    · simpa [Direct.dedup, Direct.merge] using hitem

/-- A direct block without repetitions. -/
structure IsDistinct (direct : Direct) : Prop where
  chains : direct.chains.Nodup
  rules : direct.rules.Nodup
  passthroughs : direct.passthroughs.Nodup

theorem isDistinct_dedup (direct : Direct) : direct.dedup.IsDistinct where
  chains := nodup_distinct _
  rules := nodup_distinct _
  passthroughs := nodup_distinct _

theorem dedup_of_isDistinct {direct : Direct} (h : direct.IsDistinct) : direct.dedup = direct := by
  simp [dedup, merge, addNew, distinct_of_nodup h.chains, distinct_of_nodup h.rules,
    distinct_of_nodup h.passthroughs]

end Direct

/-! ## Configurations -/

namespace Config

/-- A configuration in the form that imports have. -/
structure IsNormal (config : Config) : Prop where
  vars : config.vars = []
  names : (names config.zones).Nodup
  nameless : "" ∉ Ordered.names config.zones
  zones : ∀ entry ∈ config.zones, entry.2.IsRead ∧ entry.2.NeverOff ∧ entry.2.IsDistinct
  direct : ∀ direct ∈ config.direct, direct.IsRead ∧ direct.IsDistinct ∧
    (direct.chains ≠ [] ∨ direct.rules ≠ [] ∨ direct.passthroughs ≠ [])

theorem IsNormal.isExpanded {config : Config} (h : config.IsNormal) : config.IsExpanded where
  vars := h.vars
  zones entry hentry := (h.zones entry hentry).1.isExpanded
  direct direct hdirect := by
    obtain ⟨hread, -, hnonempty⟩ := h.direct direct hdirect
    exact ⟨hread.rules, hread.passthroughs, hread.ruleGroups, hnonempty⟩

theorem IsNormal.dedup {config : Config} (h : config.IsNormal) : config.dedup = config := by
  have hzones : mapValues Zone.dedup config.zones = config.zones := by
    refine (List.map_congr_left ?_).trans (List.map_id _)
    rintro ⟨name, zone⟩ hentry
    exact congrArg (name, ·) (Zone.dedup_of_isDistinct (h.zones _ hentry).2.2)
  have hdirect : config.direct.map Direct.dedup = config.direct := by
    cases hd : config.direct with
    | none => rfl
    | some direct => exact congrArg some (Direct.dedup_of_isDistinct (h.direct direct hd).2.1)
  rw [dedup_eq, hzones, hdirect]

end Config

namespace Script

theorem isNormal_config {defaultZone : String} (h : defaultZone ≠ "") (text : String) :
    (Import.ofText defaultZone text).config.IsNormal := by
  have hmade := made_fragments defaultZone text
  rw [Import.ofText, ofFragments_eq]
  set gathered := gather (fragments (outcomes defaultZone text)) with hgathered
  constructor
  case vars => rfl
  case names =>
    rw [names_mapValues]
    exact nodup_gather _
  case nameless =>
    rw [names_mapValues]
    intro hname
    obtain ⟨entry, hentry, hempty⟩ := List.mem_map.mp hname
    rcases (hmade.zones entry hentry).1 with hdefault | hne
    · exact h (hdefault.symm.trans hempty)
    · exact hne hempty
  case zones =>
    intro entry hentry
    obtain ⟨e, he, rfl⟩ := List.mem_map.mp hentry
    have hzone := (hmade.zones e he).2.dedup
    exact ⟨hzone.isRead, hzone.neverOff, e.2.isDistinct_dedup⟩
  case direct =>
    intro direct hdirect
    obtain ⟨hsome, hnonempty⟩ := Option.mem_filter_iff.mp hdirect
    obtain ⟨d, hd, rfl⟩ := Option.map_eq_some_iff.mp hsome
    have hread := (hmade.direct d hd).dedup.isRead
    refine ⟨hread, d.isDistinct_dedup, ?_⟩
    simpa [Direct.isEmpty, hread.ruleGroups, imp_iff_not_or, or_assoc] using hnonempty

/-- **Normal form of imports.** Whatever text is imported, with any default zone that has a name, the
configuration has no variables, loops and rule groups, no empty names, targets and values, nothing that
is turned off, no repetitions and no empty direct block, and each item is as its reader makes it. So
there is nothing to leave out and nothing to expand. -/
theorem isNormal_ofText {defaultZone : String} (h : defaultZone ≠ "") (text : String) :
    let config := (Import.ofText defaultZone text).config
    config.IsNormal ∧ config.dedup = config ∧ config.expand = config :=
  have hnormal := isNormal_config h text
  ⟨hnormal, hnormal.dedup, Config.expand_of_isExpanded hnormal.isExpanded⟩

/-- A port with blanks and a rule over two lines, a flag without a value, and a port that was there. -/
theorem isNormal_ofText_continued :
    let text := "firewall-cmd --add-port=' 80 / udp' \\\n --add-rich-rule='rule port port=1 accept'\n"
      ++ "firewall-cmd --add-port=80/udp --zone=\nfirewall-cmd --add-port=80/udp\n"
    let config := (Import.ofText "public" text).config
    let rule : RichRule := { port := some "1", protocol := some "tcp", action := some "accept" }
    config.IsNormal ∧ config.expand = config ∧ config =
      { zones := [("public", { ports := [⟨"80", "udp", none⟩], richRules := [rule] })] } := by
  intro text config rule
  obtain ⟨hnormal, -, hexpand⟩ := isNormal_ofText (by decide : "public" ≠ "") text
  exact ⟨hnormal, hexpand, by decide +kernel⟩

end Script

end ZoneScript
