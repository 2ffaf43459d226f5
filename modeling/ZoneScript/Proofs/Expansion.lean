import Mathlib.Data.List.Basic
import ZoneScript.Proofs.Ordered
import ZoneScript.Template.Expansion

/-!
# What an expansion comes to

An expansion works item by item: each list of a zone and of the direct block is unrolled, and then the
texts of its items are substituted. What it leaves has no variables, loops and rule groups, and a
configuration without any is its own expansion.
-/

namespace ZoneScript

open Text

namespace Template

/-! ## Texts without replacements -/

theorem suffix_of_tokenAt? {cs name rest : List Char} (h : tokenAt? cs = some (name, rest)) :
    rest <:+ cs := by
  simp only [tokenAt?, Option.bind_eq_some_iff] at h
  obtain ⟨inner, hinner, h⟩ := h
  split at h
  · obtain ⟨r, hr, heq⟩ := Option.map_eq_some_iff.mp h
    obtain ⟨-, rfl⟩ := Prod.mk.inj heq
    have hclosing : r <:+ trimStart ((trimStart inner).dropWhile isNameChar) :=
      ⟨closing, (dropHead?_eq_some.mp hr).symm⟩
    exact hclosing.trans <| (List.dropWhile_suffix _).trans <| (List.dropWhile_suffix _).trans <|
      (List.dropWhile_suffix _).trans ⟨opening, (dropHead?_eq_some.mp hinner).symm⟩
  · cases h

/-- The characters that a piece is written with. -/
def Piece.chars : Piece → List Char
  | .char c => [c]
  | .token written _ => written

theorem flatMap_pieces (cs : List Char) : (pieces cs).flatMap Piece.chars = cs := by
  induction cs using pieces.induct with
  | case1 => simp [pieces]
  | case2 c cs name rest h ih =>
    obtain ⟨front, hfront⟩ := suffix_of_tokenAt? h
    rw [pieces]
    split
    · rename_i heq
      rw [h] at heq
      cases heq
      rw [List.flatMap_cons, ih, Piece.chars, ← hfront]
      simp
    · simp_all
  | case3 c cs h ih =>
    rw [pieces]
    split
    · simp_all
    · rw [List.flatMap_cons, ih]
      rfl

theorem replaceTokens_none (text : String) : replaceTokens (fun _ => none) text = text :=
  calc replaceTokens (fun _ => none) text
    _ = .ofList ((pieces text.toList).flatMap Piece.chars) :=
      congrArg String.ofList (List.flatMap_congr fun piece _ => by cases piece <;> rfl)
    _ = text := by rw [flatMap_pieces, String.ofList_toList]

theorem substitute_nil : substitute [] = id :=
  funext replaceTokens_none

/-! ## Items -/

/-- An item whose loop has nothing to do with its texts. -/
class LawfulLoop (α : Type) [HasLoop α] : Prop where
  loop?_withoutLoop (item : α) : HasLoop.loop? (HasLoop.withoutLoop item) = none
  loop?_mapTexts (f : String → String) (item : α) :
    HasLoop.loop? (mapTexts f item) = HasLoop.loop? item

open LawfulLoop

instance : LawfulLoop ValueItem := ⟨fun _ => rfl, fun _ _ => rfl⟩

theorem loop_splitPort (item : PortItem) : item.splitPort.loop = item.loop := by
  rw [PortItem.splitPort]
  split <;> rfl

instance : LawfulLoop PortItem := ⟨fun _ => rfl, fun _ _ => loop_splitPort _⟩

instance : LawfulLoop ForwardPort := ⟨fun _ => rfl, fun _ _ => rfl⟩

instance : LawfulLoop RichRule := ⟨fun _ => rfl, fun _ _ => rfl⟩

instance : LawfulLoop DirectRule := ⟨fun _ => rfl, fun _ _ => rfl⟩

instance : LawfulLoop Passthrough := ⟨fun _ => rfl, fun _ _ => rfl⟩

section

variable {α : Type} [HasLoop α] {vars : List (String × Variable)} {items : List α}

/-- No item stands for several. -/
def IsUnrolled (items : List α) : Prop :=
  ∀ item ∈ items, HasLoop.loop? item = none

/-- The literal items that some items stand for. -/
def expandAll (vars : List (String × Variable)) (items : List α) : List α :=
  (unrollAll vars items).map (mapTexts (substitute vars))

theorem isUnrolled_unroll [LawfulLoop α] (vars : List (String × Variable)) (item : α) :
    IsUnrolled (unroll vars item) := by
  intro x hx
  rw [unroll] at hx
  split at hx
  · rename_i hloop
    rwa [List.mem_singleton.mp hx]
  · dsimp only at hx
    split at hx
    · obtain ⟨value, -, rfl⟩ := List.mem_map.mp hx
      rw [loop?_mapTexts, loop?_withoutLoop]
    · rw [List.mem_singleton.mp hx, loop?_withoutLoop]

theorem isUnrolled_expandAll [LawfulLoop α] (vars : List (String × Variable)) (items : List α) :
    IsUnrolled (expandAll vars items) := by
  intro x hx
  obtain ⟨y, hy, rfl⟩ := List.mem_map.mp hx
  obtain ⟨item, -, hy⟩ := List.mem_flatMap.mp hy
  rw [loop?_mapTexts]
  exact isUnrolled_unroll vars item y hy

theorem unrollAll_of_isUnrolled (h : IsUnrolled items) : unrollAll vars items = items := by
  have hitem : ∀ item ∈ items, unroll vars item = [item] := fun item hitem => by
    rw [unroll, h item hitem]
  rw [unrollAll, List.flatMap_congr hitem, List.flatMap_singleton']

theorem expandAll_nil (h : IsUnrolled items) (hid : ∀ item ∈ items, mapTexts id item = item) :
    expandAll [] items = items := by
  rw [expandAll, unrollAll_of_isUnrolled h, substitute_nil, List.map_congr_left hid, List.map_id']

end

/-! ## Ports -/

theorem port_splitPort (item : PortItem) : '/' ∉ item.splitPort.port.toList := by
  rw [PortItem.splitPort]
  split
  · rename_i hcut
    simpa using (splitFirst_eq_some.mp hcut).2
  · rename_i hcut
    exact splitFirst_eq_none.mp hcut

theorem splitPort_of_not_mem {item : PortItem} (h : '/' ∉ item.port.toList) :
    item.splitPort = item := by
  rw [PortItem.splitPort, splitFirst_eq_none.mpr h]

theorem port_of_mem_expandAll {vars : List (String × Variable)} {items : List PortItem}
    {item : PortItem} (h : item ∈ expandAll vars items) : '/' ∉ item.port.toList := by
  obtain ⟨x, -, rfl⟩ := List.mem_map.mp h
  exact port_splitPort _

/-! ## Texts that stay as they are -/

theorem mapTexts_id_valueItem (item : ValueItem) : mapTexts id item = item := rfl

theorem mapTexts_id_portItem {item : PortItem} (h : '/' ∉ item.port.toList) :
    mapTexts id item = item :=
  splitPort_of_not_mem h

theorem mapTexts_id_forwardPort (item : ForwardPort) : mapTexts id item = item := by
  simp [mapTexts]

theorem mapTexts_id_richRule (rule : RichRule) : mapTexts id rule = rule := by
  simp [mapTexts]

/-! ## Zones and direct blocks -/

/-- The literal zone that a zone stands for. -/
def expandZone (vars : List (String × Variable)) (zone : Zone) : Zone where
  target := zone.target.map (substitute vars)
  interfaces := expandAll vars zone.interfaces
  sources := expandAll vars zone.sources
  services := expandAll vars zone.services
  ports := expandAll vars zone.ports
  protocols := expandAll vars zone.protocols
  sourcePorts := expandAll vars zone.sourcePorts
  richRules := expandAll vars zone.richRules
  forward := zone.forward
  masquerade := zone.masquerade
  forwardPorts := expandAll vars zone.forwardPorts
  icmpBlocks := expandAll vars zone.icmpBlocks
  icmpBlockInversion := zone.icmpBlockInversion

/-- The literal direct block that a direct block stands for. -/
def expandDirect (vars : List (String × Variable)) (direct : Direct) : Direct where
  chains := (realizeGroups direct).chains.map (mapTexts (substitute vars))
  rules := expandAll vars (realizeGroups direct).rules
  passthroughs := expandAll vars (realizeGroups direct).passthroughs

theorem expand_eq (config : Config) :
    config.expand =
      { zones := Ordered.mapValues (expandZone (resolve config.vars)) config.zones
        direct := (config.direct.map (expandDirect (resolve config.vars))).filter (!·.isEmpty) } := by
  simp only [Config.expand, unrolledZones, unrolledDirect, List.map_map, Option.map_map]
  rfl

end Template

open Template Ordered

/-! ## Literal configurations -/

/-- A zone in which no item stands for several and no port holds its protocol. -/
structure Zone.IsExpanded (zone : Zone) : Prop where
  interfaces : IsUnrolled zone.interfaces
  sources : IsUnrolled zone.sources
  services : IsUnrolled zone.services
  ports : IsUnrolled zone.ports
  protocols : IsUnrolled zone.protocols
  sourcePorts : IsUnrolled zone.sourcePorts
  richRules : IsUnrolled zone.richRules
  forwardPorts : IsUnrolled zone.forwardPorts
  icmpBlocks : IsUnrolled zone.icmpBlocks
  split : ∀ item ∈ zone.ports ++ zone.sourcePorts, '/' ∉ item.port.toList

/-- A direct block in which nothing stands for several, and which is not empty. -/
structure Direct.IsExpanded (direct : Direct) : Prop where
  rules : IsUnrolled direct.rules
  passthroughs : IsUnrolled direct.passthroughs
  ruleGroups : direct.ruleGroups = []
  nonempty : direct.chains ≠ [] ∨ direct.rules ≠ [] ∨ direct.passthroughs ≠ []

/-- A configuration without variables, loops and rule groups. Tokens may be left in its texts. -/
structure Config.IsExpanded (config : Config) : Prop where
  vars : config.vars = []
  zones : ∀ entry ∈ config.zones, entry.2.IsExpanded
  direct : ∀ direct ∈ config.direct, direct.IsExpanded

theorem Zone.isExpanded_expandZone (vars : List (String × Variable)) (zone : Zone) :
    (expandZone vars zone).IsExpanded where
  interfaces := isUnrolled_expandAll vars zone.interfaces
  sources := isUnrolled_expandAll vars zone.sources
  services := isUnrolled_expandAll vars zone.services
  ports := isUnrolled_expandAll vars zone.ports
  protocols := isUnrolled_expandAll vars zone.protocols
  sourcePorts := isUnrolled_expandAll vars zone.sourcePorts
  richRules := isUnrolled_expandAll vars zone.richRules
  forwardPorts := isUnrolled_expandAll vars zone.forwardPorts
  icmpBlocks := isUnrolled_expandAll vars zone.icmpBlocks
  split _ hitem := (List.mem_append.mp hitem).elim port_of_mem_expandAll port_of_mem_expandAll

theorem Direct.isExpanded_expandDirect {vars : List (String × Variable)} {direct : Direct}
    (h : (expandDirect vars direct).isEmpty = false) : (expandDirect vars direct).IsExpanded where
  rules := isUnrolled_expandAll vars _
  passthroughs := isUnrolled_expandAll vars _
  ruleGroups := rfl
  nonempty := by
    simpa [Direct.isEmpty, expandDirect, imp_iff_not_or, or_assoc] using h

theorem Config.isExpanded_expand (config : Config) : config.expand.IsExpanded where
  vars := rfl
  zones := by
    rw [expand_eq]
    intro entry hentry
    obtain ⟨⟨name, zone⟩, -, rfl⟩ := List.mem_map.mp hentry
    exact Zone.isExpanded_expandZone _ zone
  direct := by
    rw [expand_eq]
    intro direct hdirect
    obtain ⟨hsome, hempty⟩ := Option.mem_filter_iff.mp hdirect
    obtain ⟨d, -, rfl⟩ := Option.map_eq_some_iff.mp hsome
    exact Direct.isExpanded_expandDirect (by simpa using hempty)

/-! ## Expanding twice -/

theorem expandZone_of_isExpanded {zone : Zone} (h : zone.IsExpanded) : expandZone [] zone = zone := by
  obtain ⟨hports, hsourcePorts⟩ := List.forall_mem_append.mp h.split
  rw [expandZone, substitute_nil, Option.map_id, id,
    expandAll_nil h.interfaces fun item _ => mapTexts_id_valueItem item,
    expandAll_nil h.sources fun item _ => mapTexts_id_valueItem item,
    expandAll_nil h.services fun item _ => mapTexts_id_valueItem item,
    expandAll_nil h.ports fun item hitem => mapTexts_id_portItem (hports item hitem),
    expandAll_nil h.protocols fun item _ => mapTexts_id_valueItem item,
    expandAll_nil h.sourcePorts fun item hitem => mapTexts_id_portItem (hsourcePorts item hitem),
    expandAll_nil h.richRules fun rule _ => mapTexts_id_richRule rule,
    expandAll_nil h.forwardPorts fun item _ => mapTexts_id_forwardPort item,
    expandAll_nil h.icmpBlocks fun item _ => mapTexts_id_valueItem item]

theorem realizeGroups_of_nil {direct : Direct} (h : direct.ruleGroups = []) :
    realizeGroups direct = direct := by
  cases direct
  simp_all [realizeGroups]

theorem expandDirect_of_isExpanded {direct : Direct} (h : direct.IsExpanded) :
    expandDirect [] direct = direct := by
  have hchains : direct.chains.map (mapTexts (substitute [])) = direct.chains := by
    rw [substitute_nil]
    exact List.map_id _
  rw [expandDirect, realizeGroups_of_nil h.ruleGroups, hchains,
    expandAll_nil h.rules fun _ _ => rfl, expandAll_nil h.passthroughs fun _ _ => rfl,
    ← h.ruleGroups]

theorem Config.expand_of_isExpanded {config : Config} (h : config.IsExpanded) :
    config.expand = config := by
  have hzones : mapValues (expandZone []) config.zones = config.zones := by
    refine (List.map_congr_left ?_).trans (List.map_id _)
    rintro ⟨name, zone⟩ hentry
    exact congrArg (name, ·) (expandZone_of_isExpanded (h.zones _ hentry))
  have hdirect : (config.direct.map (expandDirect [])).filter (!·.isEmpty) = config.direct := by
    cases hd : config.direct with
    | none => rfl
    | some direct =>
      have hexpanded := h.direct direct hd
      have hempty : direct.isEmpty = false := by
        simpa [Direct.isEmpty, hexpanded.ruleGroups, imp_iff_not_or, or_assoc]
          using hexpanded.nonempty
      simp [expandDirect_of_isExpanded hexpanded, hempty]
  rw [expand_eq, h.vars, show resolve [] = [] from rfl, hzones, hdirect, ← h.vars]

/-! ## What an expansion leaves alone -/

theorem toggle?_expandZone (vars : List (String × Variable)) (zone : Zone) (f : ZoneField) :
    (expandZone vars zone).toggle? f = zone.toggle? f := by
  cases f <;> rfl

theorem Config.mapValues_expand {α : Type} {view : Zone → α} (config : Config)
    (h : ∀ vars zone, view (expandZone vars zone) = view zone) :
    mapValues view config.expand.zones = mapValues view config.zones := by
  rw [expand_eq, mapValues, mapValues, mapValues, List.map_map]
  exact List.map_congr_left fun entry _ => congrArg (entry.1, ·) (h _ entry.2)

/-- **Normal form.** An expansion leaves no variables, loops and rule groups, no empty direct block and
no protocol in a port, and it keeps the names, the order and the toggles of the zones. What is in this
form is its own expansion, so that expanding twice is expanding once. -/
theorem Config.expand_normalForm (config : Config) :
    config.expand.IsExpanded ∧
      names config.expand.zones = names config.zones ∧
      (∀ f : ZoneField, mapValues (·.toggle? f) config.expand.zones =
        mapValues (·.toggle? f) config.zones) ∧
      (∀ normal : Config, normal.IsExpanded → normal.expand = normal) ∧
      config.expand.expand = config.expand :=
  ⟨isExpanded_expand config, by rw [expand_eq, names_mapValues],
    fun f => mapValues_expand config fun vars zone => toggle?_expandZone vars zone f,
    fun _ => expand_of_isExpanded, expand_of_isExpanded (isExpanded_expand config)⟩

/-- A loop value that brings its protocol along, a token that nothing resolves, a direct block that
comes to nothing, and a toggle that is off. -/
theorem Config.expand_normalForm_tokens :
    let config : Config :=
      { vars := [("web", .list ["80", "8080/udp"]), ("p", .scalar "tcp")]
        zones := [("a", { services := [{ value := "\x7b\x7bgone\x7d\x7d" }], forward := some false
                          ports := [{ port := "\x7b\x7bitem\x7d\x7d", protocol := "\x7b\x7bp\x7d\x7d"
                                      loop := some "web" }] })]
        direct := some { ruleGroups := [{ table := "filter", chain := "X" }] } }
    let normal : Config :=
      { zones := [("a", { services := [{ value := "\x7b\x7bgone\x7d\x7d" }], forward := some false
                          ports := [{ port := "80", protocol := "tcp" },
                            { port := "8080", protocol := "udp" }] })] }
    config.expand = normal ∧ normal.IsExpanded ∧ normal.expand = normal := by
  intro config normal
  have hconfig : config.expand = normal := by decide +kernel
  obtain ⟨hexpanded, -, -, hid, -⟩ := expand_normalForm config
  rw [hconfig] at hexpanded
  exact ⟨hconfig, hexpanded, hid normal hexpanded⟩

end ZoneScript
