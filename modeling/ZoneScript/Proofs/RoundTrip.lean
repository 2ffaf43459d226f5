import ZoneScript.Proofs.Entries
import ZoneScript.Proofs.Fragments
import ZoneScript.Proofs.Ports
import ZoneScript.Proofs.RichRules
import ZoneScript.Proofs.ScriptText

/-!
# Scripts that are imported again

The script that applies a literal configuration is imported as that configuration, less what writes no
line and less repetitions. Each line says one entry; put together in order, the entries are the
configuration again.
-/

namespace ZoneScript

open Text Shell

/-! ## Literal configurations -/

/-- A plain value that a flag gives back. -/
@[mk_iff]
structure ValueItem.IsLiteral (item : ValueItem) : Prop where
  loop : item.loop = none
  value : item.value ≠ ""

instance (item : ValueItem) : Decidable item.IsLiteral :=
  decidable_of_iff' _ item.isLiteral_iff

/-- A zone whose entries their texts give back. -/
@[mk_iff]
structure Zone.IsLiteral (zone : Zone) : Prop where
  target : ∀ target ∈ zone.target, target ≠ ""
  values : ∀ f ∈ ZoneField.all, ∀ items ∈ zone.values? f, ∀ item ∈ items, item.IsLiteral
  ports : ∀ f ∈ ZoneField.all, ∀ items ∈ zone.ports? f, ∀ item ∈ items, item.IsLiteral
  forwardPorts : ∀ item ∈ zone.forwardPorts, item.IsLiteral
  richRules : ∀ rule ∈ zone.richRules, rule.IsCanonical

instance (zone : Zone) : Decidable zone.IsLiteral :=
  decidable_of_iff' _ zone.isLiteral_iff

/-- A direct block whose arguments their own words give back. A priority is a number of 32 bits. -/
@[mk_iff]
structure Direct.IsLiteral (direct : Direct) : Prop where
  rules : ∀ rule ∈ direct.rules, rule.loop = none ∧ fitsSigned 32 rule.priority = true ∧
    Script.IsRejoined rule.args
  passthroughs : ∀ item ∈ direct.passthroughs, item.loop = none ∧ Script.IsRejoined item.args
  ruleGroups : direct.ruleGroups = []

instance (direct : Direct) : Decidable direct.IsLiteral :=
  decidable_of_iff' _ direct.isLiteral_iff

/-- A configuration without variables, loops and rule groups that its script gives back. Like every map,
the one of its zones has each name once. -/
@[mk_iff]
structure Config.IsLiteral (config : Config) : Prop where
  vars : config.vars = []
  distinct : (Ordered.names config.zones).Nodup
  zones : ∀ entry ∈ config.zones, entry.1 ≠ "" ∧ entry.2.IsLiteral
  direct : ∀ direct ∈ config.direct, direct.IsLiteral

instance (config : Config) : Decidable config.IsLiteral :=
  decidable_of_iff' _ config.isLiteral_iff

namespace Script

/-! ## What the lines say -/

theorem ne_empty_of_mem {s : String} {c : Char} (h : c ∈ s.toList) : s ≠ "" := by
  rintro rfl
  cases h

theorem setField_value {f : ZoneField} (hkind : f.kind = .values) {item : ValueItem}
    (h : item.IsLiteral) (name : String) (zone : Zone) :
    setField zone f ⟨name, some item.value⟩ = .ok (zone.addValue f item) := by
  have hitem : { value := item.value } = item := by rw [← h.loop]
  have henters : Enters zone f (some item.value) (zone.addValue f { value := item.value }) :=
    .value hkind h.value
  rw [hitem] at henters
  exact setField_of_enters henters name

theorem setField_port {f : ZoneField} (hkind : f.kind = .ports) {item : PortItem}
    (h : item.IsLiteral) (name : String) (zone : Zone) :
    setField zone f ⟨name, some item.spec⟩ = .ok (zone.addPort f item) := by
  have hspec : item.spec ≠ "" := ne_empty_of_mem (c := '/') (by simp [PortItem.spec])
  have henters : Enters zone f (some item.spec) (zone.addPort f (.ofSpec item.spec)) :=
    .port hkind hspec
  rw [PortItem.ofSpec_spec h] at henters
  exact setField_of_enters henters name

theorem setField_forwardPort {f : ZoneField} (hkind : f.kind = .forwardPorts) {item : ForwardPort}
    (h : item.IsLiteral) (name : String) (zone : Zone) :
    setField zone f ⟨name, some item.spec⟩ =
      .ok { zone with forwardPorts := zone.forwardPorts ++ [item] } := by
  have hspec : item.spec ≠ "" := ne_empty_of_mem (c := '=') (by simp [ForwardPort.spec])
  exact setField_of_enters (.forwardPort hkind hspec (ForwardPort.ofSpec?_spec h)) name

theorem setField_richRule {f : ZoneField} (hkind : f.kind = .richRules) {rule : RichRule}
    (h : rule.IsCanonical) (name : String) (zone : Zone) :
    setField zone f ⟨name, some rule.text⟩ =
      .ok { zone with richRules := zone.richRules ++ [rule] } := by
  have htext : rule.text ≠ "" := by
    intro htext
    have := RichRule.split_text h.action h.blunt.verbatim
    rw [htext] at this
    cases this
  have hrule : RichRule.ofText rule.text = rule :=
    congrArg Prod.fst (RichRule.ofTextRest_text h.isSpoken h.blunt.verbatim)
  have henters : Enters zone f (some rule.text)
      { zone with richRules := zone.richRules ++ [.ofText rule.text] } := .richRule hkind htext
  rw [hrule] at henters
  exact setField_of_enters henters name

theorem says_fieldEntries {name : String} (hname : name ≠ "") {zone : Zone} (h : zone.IsLiteral)
    (f : ZoneField) :
    ∀ e ∈ fieldEntries name zone f, e.1.Says { zones := [(name, e.2)] } := by
  intro e he
  rw [fieldEntries] at he
  cases hkind : f.kind with
  | target =>
    simp only [hkind, List.mem_map, Option.mem_toList] at he
    obtain ⟨t, ht, rfl⟩ := he
    exact says_target hname (h.target t ht)
  | toggle =>
    simp only [hkind] at he
    split at he
    · obtain rfl := List.mem_singleton.mp he
      exact says_entry hname (setField_of_enters (.toggle hkind) _)
    · cases he
  | values =>
    obtain ⟨items, hitems⟩ : ∃ items, zone.values? f = some items := by
      rw [← Option.isSome_iff_exists, Zone.values?_isSome, hkind]
      rfl
    simp only [hkind, hitems, Option.getD_some, List.mem_map] at he
    obtain ⟨item, hitem, rfl⟩ := he
    exact says_entry hname
      (setField_value hkind (h.values f f.mem_all items hitems item hitem) _ _)
  | ports =>
    obtain ⟨items, hitems⟩ : ∃ items, zone.ports? f = some items := by
      rw [← Option.isSome_iff_exists, Zone.ports?_isSome, hkind]
      rfl
    simp only [hkind, hitems, Option.getD_some, List.mem_map] at he
    obtain ⟨item, hitem, rfl⟩ := he
    exact says_entry hname
      (setField_port hkind (h.ports f f.mem_all items hitems item hitem) _ _)
  | forwardPorts =>
    simp only [hkind, List.mem_map] at he
    obtain ⟨item, hitem, rfl⟩ := he
    exact says_entry hname
      (setField_forwardPort hkind (h.forwardPorts item hitem) _ _)
  | richRules =>
    simp only [hkind, List.mem_map] at he
    obtain ⟨rule, hrule, rfl⟩ := he
    exact says_entry hname
      (setField_richRule hkind (h.richRules rule hrule) _ _)

theorem says_directEntries {direct : Direct} (h : direct.IsLiteral) :
    ∀ e ∈ directEntries direct, e.1.Says { direct := some e.2 } := by
  intro e he
  simp only [directEntries, List.mem_append, List.mem_map] at he
  rcases he with (⟨chain, -, rfl⟩ | ⟨rule, hrule, rfl⟩) | ⟨item, hitem, rfl⟩
  · exact says_chain chain
  · obtain ⟨hloop, hpriority, hargs⟩ := h.rules rule hrule
    exact says_rule hloop hpriority hargs
  · obtain ⟨hloop, hargs⟩ := h.passthroughs item hitem
    exact says_passthrough hloop hargs

theorem says_entries {config : Config} (h : config.IsLiteral) :
    ∀ e ∈ entries config, e.1.Says e.2 := by
  intro e he
  simp only [entries, List.mem_append, List.mem_flatMap, List.mem_map, Option.mem_toList] at he
  rcases he with ⟨⟨name, zone⟩, hzone, e, he, rfl⟩ | ⟨direct, hdirect, e, he, rfl⟩
  · obtain ⟨hname, hlit⟩ := h.zones _ hzone
    obtain ⟨f, -, hf⟩ := List.mem_flatMap.mp he
    exact says_fieldEntries hname hlit f e hf
  · exact says_directEntries (h.direct direct hdirect) e he

/-! ## The lines of a script -/

theorem ofConfig_apply {options : Options} (h : options.banners = false) (config : Config) :
    ofConfig options .apply config =
      (allChanges .apply config).flatMap (changeLines options) ++
        if options.transient then [] else [.reload] :=
  ofConfig_of_not_banners h .apply config

/-- The fragments that the lines of a change say: one for each line. -/
def echo (options : Options) (change : Change) (fragment : Config) : List Config :=
  (changeLines options change).map fun _ => fragment

theorem fragments_changeLines (defaultZone : String) {options : Options} {change : Change}
    {fragment : Config} (hread : change.Says fragment)
    (h : ∀ line ∈ changeLines options change, reference? line.text.toList = none) :
    (changeLines options change).filterMap
        (fun line => (outcome defaultZone line.text.toList).fragment?) =
      echo options change fragment := by
  have hline : ∀ line ∈ changeLines options change,
      (outcome defaultZone line.text.toList).fragment? = some fragment := by
    intro line hmem
    have hreference := h line hmem
    obtain ⟨permanent, -, rfl⟩ := mem_changeLines.mp hmem
    rw [hread.2 defaultZone permanent hreference]
    rfl
  exact List.filterMap_eq_map_iff_forall_eq_some.mpr hline

theorem fragments_lines (defaultZone : String) {options : Options} (hbanners : options.banners = false)
    {config : Config} (h : config.IsLiteral)
    (hlines : ∀ line ∈ lines options .apply config, reference? line.toList = none) :
    ((lines options .apply config).map String.toList).filterMap
        (fun l => (outcome defaultZone l).fragment?) =
      (entries config).flatMap fun (change, fragment) => echo options change fragment := by
  have hreload : (if options.transient then [] else [Line.reload]).filterMap
      (fun line => (outcome defaultZone line.text.toList).fragment?) = [] := by
    split
    · rfl
    · rw [List.filterMap_cons, outcome_reload]
      rfl
  have hcommand {e : Change × Config} (he : e ∈ entries config) :
      ∀ line ∈ changeLines options e.1, reference? line.text.toList = none := by
    intro line hline
    refine hlines _ (List.mem_map_of_mem ?_)
    rw [ofConfig_apply hbanners, ← map_entries, List.mem_append, List.mem_flatMap]
    exact .inl ⟨e.1, List.mem_map_of_mem he, hline⟩
  rw [lines, List.map_map, List.filterMap_map, ofConfig_apply hbanners, List.filterMap_append]
  refine (congrArg (_ ++ ·) hreload).trans ?_
  rw [List.append_nil, List.filterMap_flatMap, ← map_entries, List.flatMap_map]
  exact List.flatMap_congr fun e he =>
    fragments_changeLines defaultZone (says_entries h e he) (hcommand he)

theorem ofFragments_echo (options : Options) (es : List (Change × Config)) :
    ofFragments (es.flatMap fun (change, fragment) => echo options change fragment) =
      ofFragments (es.map (·.2)) := by
  rw [List.map_eq_flatMap]
  refine ofFragments_flatMap fun (change, fragment) _ => ?_
  show ofFragments (echo options change fragment) = ofFragments [fragment]
  rw [echo, changeLines]
  split
  · exact ofFragments_twice [fragment]
  · rfl

/-! ## The round trip -/

theorem mem_lines_apply {options : Options} (hbanners : options.banners = false) {config : Config}
    {line : String} (hline : line ∈ lines options .apply config) :
    line = Line.reload.text ∨
      ∃ e ∈ entries config, ∃ permanent, line = (Line.command permanent e.1).text := by
  obtain ⟨line, hmem, rfl⟩ := List.mem_map.mp hline
  rw [ofConfig_apply hbanners, ← map_entries, List.mem_append, List.mem_flatMap] at hmem
  rcases hmem with ⟨change, hchange, hmem⟩ | hmem
  · obtain ⟨e, he, rfl⟩ := List.mem_map.mp hchange
    obtain ⟨permanent, -, rfl⟩ := mem_changeLines.mp hmem
    exact .inr ⟨e, he, permanent, rfl⟩
  · split at hmem
    · cases hmem
    · exact .inl (congrArg Line.text (List.mem_singleton.mp hmem))

theorem standsAlone_lines {options : Options} (hbanners : options.banners = false) {config : Config}
    (h : config.IsLiteral) (hlines : ∀ line ∈ lines options .apply config, '\n' ∉ line.toList) :
    ∀ line ∈ lines options .apply config, StandsAlone line := by
  intro line hline
  refine ⟨hlines line hline, ?_⟩
  rcases mem_lines_apply hbanners hline with rfl | ⟨e, he, permanent, rfl⟩
  · exact closes_reload
  · exact (says_entries h e he).1 permanent

theorem outcome_lines (defaultZone : String) {options : Options} (hbanners : options.banners = false)
    {config : Config} (h : config.IsLiteral)
    (hlines : ∀ line ∈ lines options .apply config, reference? line.toList = none) :
    ∀ line ∈ lines options .apply config, ∀ error,
      outcome defaultZone line.toList ≠ .failed error := by
  intro line hline error
  have hreference := hlines line hline
  rcases mem_lines_apply hbanners hline with rfl | ⟨e, he, permanent, rfl⟩
  · simp [outcome_reload]
  · simp [(says_entries h e he).2 defaultZone permanent hreference]

/-- **Round trip.** The script that applies a literal configuration, transient or not and with a header
or without, is imported without an error as what its lines have of the configuration. -/
theorem ofText_scriptText {config : Config} (h : config.IsLiteral) {options : Options}
    (hbanners : options.banners = false)
    (hlines : ∀ line ∈ lines options .apply config,
      '\n' ∉ line.toList ∧ reference? line.toList = none)
    (header : Bool) (defaultZone : String) :
    let result := Import.ofText defaultZone (scriptText header (lines options .apply config))
    result.errors = [] ∧ result.config = config.written.dedup := by
  obtain ⟨hfeeds, hreferences⟩ := forall₂_and.mp hlines
  -- no line is continued, so the reader sees the lines as they were written
  have htexts : (logicalLines (scriptText header (lines options .apply config))).map (·.text) =
      (headerLines header ++ lines options .apply config).map String.toList :=
    texts_logicalLines (standsAlone_lines hbanners h hfeeds)
  constructor
  · apply errors_ofText
    rw [htexts]
    intro l hl error
    obtain ⟨line, hline, rfl⟩ := List.mem_map.mp hl
    rcases List.mem_append.mp hline with hline | hline
    · obtain ⟨reason, hskipped⟩ := outcome_header defaultZone header line hline
      simp [hskipped]
    · exact outcome_lines defaultZone hbanners h hreferences line hline error
  · rw [config_ofText, htexts, List.map_append, List.filterMap_append,
      fragments_header, fragments_lines defaultZone hbanners h hreferences, List.nil_append,
      ofFragments_echo, ofFragments_entries h.distinct fun d hd => (h.direct d hd).ruleGroups]

/-- A transient script with a header says everything twice. What is off and what writes no line does
not come back. -/
theorem ofText_scriptText_transient :
    let rule : RichRule := { port := some "22", protocol := some "tcp", action := some "accept" }
    let zone : Zone := { services := [{ value := "my svc" }], richRules := [rule] }
    let direct : Direct := { rules := [{ ipv := "ipv4", table := "raw", chain := "X", args := "-j X" }] }
    let config : Config :=
      { zones := [("a", { zone with masquerade := some false }), ("b", { forward := some false })]
        direct := some direct }
    let result := Import.ofText "public"
      (scriptText true (lines { transient := true, banners := false } .apply config))
    result.errors = [] ∧ result.config = { zones := [("a", zone)], direct := some direct } := by
  intro rule zone direct config
  have hliteral : config.IsLiteral := by decide +kernel
  have hlines : ∀ line ∈ lines { transient := true, banners := false } .apply config,
      '\n' ∉ line.toList ∧ reference? line.toList = none := by decide +kernel
  obtain ⟨herrors, hconfig⟩ := ofText_scriptText hliteral rfl hlines true "public"
  exact ⟨herrors, hconfig.trans (by decide +kernel)⟩

end Script

end ZoneScript
