import ZoneScript.Proofs.WrittenZones

/-!
# Documents of configurations

The document tree of a configuration is read as that configuration again, and the checker finds no error
in it. The direct block is put together from its items as a zone is, and the document from both.
-/

namespace ZoneScript

open Node Decode Table Encode Finding

/-! ## The direct block -/

/-- A number of 32 bits. -/
def IsWord (n : Int) : Prop :=
  Text.fitsSigned 32 n = true

theorem priority_int {n : Int} (h : IsWord n) : Decode.priority (.int n) = .ok n := by
  rw [IsWord] at h
  rw [Decode.priority, if_pos (fitsSigned_mono h), if_pos h]

theorem optional_priority_int {n : Int} (h : IsWord n) :
    Decode.optional Decode.priority (.int n) = .ok (some n) :=
  congrArg (Except.map some) (priority_int h)

theorem isPriority_map {o : Option Int} (h : ∀ n ∈ o, IsWord n) :
    ∀ node ∈ o.map Node.int, isPriority node = true := by
  intro node hnode
  obtain ⟨n, hn, rfl⟩ := Option.map_eq_some_iff.mp hnode
  exact h n hn

namespace Table

def directChain (chain : DirectChain) : Table :=
  [("ipv", some (.str chain.ipv)), ("table", some (.str chain.table)),
    ("chain", some (.str chain.chain))]

def directRule (rule : DirectRule) : Table :=
  [("ipv", some (.str rule.ipv)), ("table", some (.str rule.table)),
    ("chain", some (.str rule.chain)), ("priority", some (.int rule.priority)),
    ("args", some (.str rule.args)), ("loop", rule.loop.map .str)]

def passthrough (item : Passthrough) : Table :=
  [("ipv", some (.str item.ipv)), ("args", some (.str item.args)), ("loop", item.loop.map .str)]

def groupRule (rule : GroupRule) : Table :=
  [("priority", rule.priority.map .int), ("args", some (.str rule.args)),
    ("loop", rule.loop.map .str)]

def groupPassthrough (item : GroupPassthrough) : Table :=
  [("args", some (.str item.args)), ("loop", item.loop.map .str)]

def ruleGroup (group : RuleGroup) : Table :=
  [("ipv", some (Encode.families group.ipv)), ("table", some (.str group.table)),
    ("chain", some (.str group.chain)), ("priority", group.priority.map .int),
    ("rules", listValue Encode.groupRule group.rules),
    ("passthroughs", listValue Encode.groupPassthrough group.passthroughs)]

def direct (direct : Direct) : Table :=
  [("chains", listValue Encode.directChain direct.chains),
    ("rules", listValue Encode.directRule direct.rules),
    ("passthroughs", listValue Encode.passthrough direct.passthroughs),
    ("rule_groups", listValue Encode.ruleGroup direct.ruleGroups)]

end Table

theorem isKept_directChain (chain : DirectChain) :
    IsKept Encode.directChain (record .plain "DirectChain" Keys.directChain setDirectChain {})
      (Finding.mapping "direct chain" Finding.directChain) chain := by
  have h : Describes Keys.directChain setDirectChain {} (Table.directChain chain) chain :=
    { names := rfl
      distinct := by decide
      isJson := by simp [Table.directChain, IsJson.str]
      fills := .put rfl <| .put rfl <| .put rfl <| .nil _ }
  have d := h.distinct_names
  refine h.isKept rfl .plain _ fun path => ?_
  simp only [Finding.mapping, Finding.directChain, quiet_append, quiet_keys, quiet_required, true_and,
    directFamily]
  refine ⟨quiet_checked d (isText_some _), quiet_scalars d ?_⟩
  simp only [List.forall_mem_cons]
  exact ⟨isText_some _, isText_some _, List.forall_mem_nil _⟩

theorem directRule_eq (rule : DirectRule) :
    Encode.directRule rule = .map (Table.directRule rule).written := by
  simp only [Encode.directRule, entry_eq, entry_cons, optional_eq, ← written_append,
    List.cons_append, List.nil_append, Table.directRule]

theorem isKept_directRule {rule : DirectRule} (hpriority : IsWord rule.priority) :
    IsKept Encode.directRule (record .plain "DirectRule" Keys.directRule setDirectRule {})
      (Finding.mapping "direct rule" Finding.directRule) rule := by
  have h : Describes Keys.directRule setDirectRule {} (Table.directRule rule) rule :=
    { names := rfl
      distinct := by decide
      isJson := by simp [Table.directRule, IsJson.str, IsJson.int]
      fills :=
        .put rfl <|
        .put rfl <|
        .put rfl <|
        .put (congrArg (Except.map _) (priority_int hpriority)) <|
        .put rfl <|
        .optional (fun r x => { r with loop := x }) (fun _ => rfl) rfl (fun _ _ => rfl) <|
        .nil _ }
  have d := h.distinct_names
  refine h.isKept (directRule_eq rule) .plain _ fun path => ?_
  simp only [Finding.mapping, Finding.directRule, quiet_append, quiet_keys, quiet_required, true_and,
    directFamily]
  refine ⟨⟨⟨quiet_checked d (isText_some _), quiet_scalars d ?_⟩, quiet_priority d ?_⟩,
    quiet_loop d (isText_map _)⟩
  · simp only [List.forall_mem_cons]
    exact ⟨isText_some _, isText_some _, isText_some _, List.forall_mem_nil _⟩
  · rintro _ ⟨⟩
    exact hpriority

theorem passthrough_eq (item : Passthrough) :
    Encode.passthrough item = .map (Table.passthrough item).written := by
  simp only [Encode.passthrough, entry_eq, entry_cons, optional_eq, ← written_append,
    List.cons_append, List.nil_append, Table.passthrough]

theorem isKept_passthrough (item : Passthrough) :
    IsKept Encode.passthrough (record .plain "Passthrough" Keys.passthrough setPassthrough {})
      (Finding.mapping "passthrough" Finding.passthrough) item := by
  have h : Describes Keys.passthrough setPassthrough {} (Table.passthrough item) item :=
    { names := rfl
      distinct := by decide
      isJson := by simp [Table.passthrough, IsJson.str]
      fills :=
        .put rfl <|
        .put rfl <|
        .optional (fun r x => { r with loop := x }) (fun _ => rfl) rfl (fun _ _ => rfl) <|
        .nil _ }
  have d := h.distinct_names
  refine h.isKept (passthrough_eq item) .plain _ fun path => ?_
  simp only [Finding.mapping, Finding.passthrough, quiet_append, quiet_keys, quiet_required, true_and,
    directFamily]
  exact ⟨⟨quiet_checked d (isText_some _), quiet_checked d (isText_some _)⟩,
    quiet_loop d (isText_map _)⟩

/-! ## Rule groups -/

theorem groupRule_eq (rule : GroupRule) :
    Encode.groupRule rule = .map (Table.groupRule rule).written := by
  simp only [Encode.groupRule, entry_eq, part_eq, optional_eq, ← written_append, List.cons_append,
    List.nil_append, Table.groupRule]

theorem isKept_groupRule {rule : GroupRule} (hpriority : ∀ n ∈ rule.priority, IsWord n) :
    IsKept Encode.groupRule (record .plain "RuleGroupRule" Keys.groupRule setGroupRule {})
      (Finding.mapping "rule group rule" Finding.groupRule) rule := by
  have h : Describes Keys.groupRule setGroupRule {} (Table.groupRule rule) rule :=
    { names := rfl
      distinct := by decide
      isJson := by simp [Table.groupRule, IsJson.str]
      fills :=
        .optional (fun r x => { r with priority := x }) (fun _ => rfl) rfl
          (fun n hn => optional_priority_int (hpriority n hn)) <|
        .put rfl <|
        .optional (fun r x => { r with loop := x }) (fun _ => rfl) rfl (fun _ _ => rfl) <|
        .nil _ }
  have d := h.distinct_names
  refine h.isKept (groupRule_eq rule) .plain _ fun path => ?_
  simp only [Finding.mapping, Finding.groupRule, quiet_append, quiet_keys, quiet_required, true_and]
  exact ⟨⟨quiet_checked d (isText_some _), quiet_priority d (isPriority_map hpriority)⟩,
    quiet_loop d (isText_map _)⟩

theorem groupPassthrough_eq (item : GroupPassthrough) :
    Encode.groupPassthrough item = .map (Table.groupPassthrough item).written := by
  simp only [Encode.groupPassthrough, entry_eq, optional_eq, ← written_append, List.cons_append,
    List.nil_append, Table.groupPassthrough]

theorem isKept_groupPassthrough (item : GroupPassthrough) :
    IsKept Encode.groupPassthrough (shaped "Repr" groupPassthrough?) Finding.groupPassthrough
      item := by
  have h : Describes Keys.groupPassthrough setGroupPassthrough {} (Table.groupPassthrough item)
      item :=
    { names := rfl
      distinct := by decide
      isJson := by simp [Table.groupPassthrough, IsJson.str]
      fills :=
        .put rfl <|
        .optional (fun r x => { r with loop := x }) (fun _ => rfl) rfl (fun _ _ => rfl) <|
        .nil _ }
  have d := h.distinct_names
  refine h.isKept_shaped (groupPassthrough_eq item) h.itemRecord_eq fun path => ?_
  simp only [Finding.groupPassthrough, quiet_append, quiet_keys, quiet_required, true_and]
  exact ⟨quiet_checked d (isText_some _), quiet_loop d (isText_map _)⟩

theorem scalars?_texts (texts : List String) : scalars? (.seq (texts.map .str)) = some texts := by
  rw [scalars?]
  induction texts with
  | nil => rfl
  | cons text texts ih => simp only [List.map_cons, List.mapM_cons, ih, Decode.scalarText?]; rfl

theorem isJson_texts (texts : List String) : (Node.seq (texts.map .str)).IsJson :=
  .seq (List.forall_mem_map.mpr fun text _ => .str text)

theorem families_cases (families : List String) :
    (∃ family, families = [family] ∧ Encode.families families = .str family) ∨
      Encode.families families = .seq (families.map .str) := by
  match families with
  | [] => exact .inr rfl
  | [family] => exact .inl ⟨family, rfl, rfl⟩
  | _ :: _ :: _ => exact .inr rfl

theorem isJson_families (families : List String) : (Encode.families families).IsJson := by
  rcases families_cases families with ⟨family, -, h⟩ | h <;> rw [h]
  · exact .str family
  · exact isJson_texts families

theorem shaped_families (families : List String) :
    shaped "OneOrMany" families? (Encode.families families) = .ok families := by
  refine shaped_of_isJson (isJson_families families) ?_
  rcases families_cases families with ⟨family, rfl, h⟩ | h <;> rw [h]
  · rfl
  · rw [families?, scalars?_texts]
    rfl

theorem quiet_families {table : Table} (d : (Ordered.names table).Nodup) {families : List String}
    (hfind : (Ordered.find? "ipv" table).join = some (Encode.families families)) (path : String) :
    Quiet (Finding.families path table.written) := by
  unfold Finding.families
  rw [find?_written d, hfind]
  rcases families_cases families with ⟨family, -, h⟩ | h <;> rw [h]
  · exact quiet_checked d (by rw [hfind, h]; exact isText_some family)
  · exact quiet_items_of (List.forall_mem_map.mpr fun family _ place => quiet_value place _ family)

theorem ruleGroup_eq (group : RuleGroup) :
    Encode.ruleGroup group = .map (Table.ruleGroup group).written := by
  simp only [Encode.ruleGroup, entry_eq, entry_cons, part_eq, list_eq, ← written_append,
    List.cons_append, List.nil_append, Table.ruleGroup]

/-- The priorities in a group are numbers of 32 bits. -/
structure RuleGroup.HasWords (group : RuleGroup) : Prop where
  priority : ∀ n ∈ group.priority, IsWord n
  rules : ∀ rule ∈ group.rules, ∀ n ∈ rule.priority, IsWord n

theorem isKept_ruleGroup {group : RuleGroup} (hwords : group.HasWords) :
    IsKept Encode.ruleGroup (record .plain "RuleGroup" Keys.ruleGroup setRuleGroup {})
      (Finding.mapping "rule group" Finding.ruleGroup) group := by
  have hrule : ∀ rule ∈ group.rules, IsKept Encode.groupRule _ _ rule :=
    fun rule hrule => isKept_groupRule (hwords.rules rule hrule)
  have h : Describes Keys.ruleGroup setRuleGroup {} (Table.ruleGroup group) group :=
    { names := rfl
      distinct := by decide
      isJson := by
        have hrules := isJsonValue_list fun rule h => (hrule rule h).isJson
        have hpassthroughs := isJsonValue_list fun item (_ : item ∈ group.passthroughs) =>
          (isKept_groupPassthrough item).isJson
        simp [Table.ruleGroup, IsJson.str, isJson_families, hrules, hpassthroughs]
      fills :=
        .put (congrArg (Except.map _) (shaped_families group.ipv)) <|
        .put rfl <|
        .put rfl <|
        .optional (fun r x => { r with priority := x }) (fun _ => rfl) rfl
          (fun n hn => optional_priority_int (hwords.priority n hn)) <|
        .list (fun r xs => { r with rules := xs }) (fun _ => rfl) rfl
          (fun rule h => (hrule rule h).reads) <|
        .list (fun r xs => { r with passthroughs := xs }) (fun _ => rfl) rfl
          (fun item _ => (isKept_groupPassthrough item).reads) <|
        .nil _ }
  have d := h.distinct_names
  refine h.isKept (ruleGroup_eq group) .plain _ fun path => ?_
  simp only [Finding.mapping, Finding.ruleGroup, quiet_append, quiet_keys, quiet_required, true_and]
  refine ⟨⟨⟨⟨quiet_scalars d ?_, quiet_priority d (isPriority_map hwords.priority)⟩,
    quiet_families d rfl path⟩, quiet_list d rfl fun rule h => (hrule rule h).quiet⟩,
    quiet_list d rfl fun item _ => (isKept_groupPassthrough item).quiet⟩
  simp only [List.forall_mem_cons]
  exact ⟨isText_some _, isText_some _, List.forall_mem_nil _⟩

/-! ## The block -/

/-- The priorities in a direct block are numbers of 32 bits. -/
structure Direct.HasWords (direct : Direct) : Prop where
  rules : ∀ rule ∈ direct.rules, IsWord rule.priority
  ruleGroups : ∀ group ∈ direct.ruleGroups, group.HasWords

theorem direct_eq (direct : Direct) :
    Encode.direct direct = .map (Table.direct direct).written := by
  simp only [Encode.direct, list_eq, ← written_append, List.cons_append, List.nil_append,
    Table.direct]

theorem isKept_direct {direct : Direct} (hwords : direct.HasWords) :
    IsKept Encode.direct (record .plain "Direct" Keys.direct setDirect {})
      (Finding.mapping "direct" Finding.direct) direct := by
  have hrule : ∀ rule ∈ direct.rules, IsKept Encode.directRule _ _ rule :=
    fun rule hrule => isKept_directRule (hwords.rules rule hrule)
  have hgroup : ∀ group ∈ direct.ruleGroups, IsKept Encode.ruleGroup _ _ group :=
    fun group hgroup => isKept_ruleGroup (hwords.ruleGroups group hgroup)
  have h : Describes Keys.direct setDirect {} (Table.direct direct) direct :=
    { names := rfl
      distinct := by decide
      isJson := by
        have hchains := isJsonValue_list fun chain (_ : chain ∈ direct.chains) =>
          (isKept_directChain chain).isJson
        have hrules := isJsonValue_list fun rule h => (hrule rule h).isJson
        have hpassthroughs := isJsonValue_list fun item (_ : item ∈ direct.passthroughs) =>
          (isKept_passthrough item).isJson
        have hgroups := isJsonValue_list fun group h => (hgroup group h).isJson
        simp [Table.direct, hchains, hrules, hpassthroughs, hgroups]
      fills :=
        .list (fun r xs => { r with chains := xs }) (fun _ => rfl) rfl
          (fun chain _ => (isKept_directChain chain).reads) <|
        .list (fun r xs => { r with rules := xs }) (fun _ => rfl) rfl
          (fun rule h => (hrule rule h).reads) <|
        .list (fun r xs => { r with passthroughs := xs }) (fun _ => rfl) rfl
          (fun item _ => (isKept_passthrough item).reads) <|
        .list (fun r xs => { r with ruleGroups := xs }) (fun _ => rfl) rfl
          (fun group h => (hgroup group h).reads) <|
        .nil _ }
  have d := h.distinct_names
  refine h.isKept (direct_eq direct) .plain _ fun path => ?_
  simp only [Finding.mapping, Finding.direct, quiet_append, quiet_keys, true_and]
  exact ⟨⟨⟨quiet_list d rfl fun chain _ => (isKept_directChain chain).quiet,
    quiet_list d rfl fun rule h => (hrule rule h).quiet⟩,
    quiet_list d rfl fun item _ => (isKept_passthrough item).quiet⟩,
    quiet_list d rfl fun group h => (hgroup group h).quiet⟩

/-! ## Configurations -/

/-- What can stand in a document: maps with each name once, and priorities of 32 bits. -/
structure Config.IsProper (config : Config) : Prop extends config.HasDistinctNames where
  words : ∀ direct ∈ config.direct, direct.HasWords

theorem isJson_templateVariable (v : Variable) : (Encode.templateVariable v).IsJson := by
  cases v with
  | scalar value => exact .str value
  | list items => exact isJson_texts items

theorem variableOf_templateVariable (v : Variable) :
    variableOf (Encode.templateVariable v) = .ok v := by
  refine shaped_of_isJson (isJson_templateVariable v) ?_
  cases v with
  | scalar value => rfl
  | list items =>
    rw [Encode.templateVariable, templateValue?, scalars?_texts]
    rfl

theorem quiet_variableEntry (name : String) (v : Variable) :
    Quiet (variableEntry (.str name) (Encode.templateVariable v)) := by
  have hreserved (b : Bool) : Quiet (if b then
      [⟨childPath "variables" name, .reservedVariable name⟩] else []) := by
    cases b <;> simp [Issue.isWarning, quiet_nil]
  refine (quiet_append _ _).mpr ⟨hreserved _, ?_⟩
  cases v with
  | scalar value => exact quiet_nil
  | list items =>
    have hshape : ((items.map Node.str).all (·.scalarText?.isSome)) = true := by
      simp [Node.scalarText?]
    show Quiet (if (items.map Node.str).all (·.scalarText?.isSome) then [] else _)
    rw [if_pos hshape]
    exact quiet_nil

def Table.config (config : Config) : Table :=
  [("variables", namedValue Encode.templateVariable config.vars),
    ("zones", namedValue Encode.zone config.zones), ("direct", config.direct.map Encode.direct)]

theorem toDocument_eq (config : Config) :
    config.toDocument = .map (Table.config config).written := by
  simp only [Config.toDocument, namedMap_eq, part_eq, ← written_append, List.cons_append,
    List.nil_append, Table.config]

theorem namedMap_vars {vars : List (String × Variable)} (distinct : (Ordered.names vars).Nodup) :
    Decode.namedMap variableOf (.map (ofFields (Ordered.mapValues Encode.templateVariable vars))) =
      .ok vars := by
  have hread : ∀ e ∈ vars, variableOf (Encode.templateVariable e.2) = .ok (id e.2) :=
    fun e _ => variableOf_templateVariable e.2
  rw [namedMap_ofFields distinct hread]
  exact congrArg Except.ok (List.map_id vars)

theorem zones_ofFields {zones : List (String × Zone)} (distinct : (Ordered.names zones).Nodup) :
    Decode.zones (.map (ofFields (Ordered.mapValues Encode.zone zones))) = .ok zones := by
  -- the reader would take a name without a zone as well
  have hread : ∀ e ∈ zones, Decode.optional Decode.zone (Encode.zone e.2) = .ok (some e.2) :=
    fun e _ => congrArg (Except.map some) (isKept_zone e.2).reads
  have hgetD : (Ordered.mapValues some zones).map (fun e => (e.1, e.2.getD {})) = zones := by
    rw [Ordered.mapValues, List.map_map]
    exact List.map_id zones
  rw [Decode.zones, namedMap_ofFields distinct hread]
  exact congrArg Except.ok hgetD

theorem describes_config {config : Config} (h : config.IsProper) :
    Describes Keys.topLevel setConfig {} (Table.config config) config where
  names := rfl
  distinct := by decide
  isJson := by
    have hvars := isJsonValue_named h.vars fun e _ => isJson_templateVariable e.2
    have hzones := isJsonValue_named h.zones fun e _ => (isKept_zone e.2).isJson
    have hdirect : IsJsonValue (config.direct.map Encode.direct) := by
      intro node hnode
      obtain ⟨direct, hdirect, rfl⟩ := Option.map_eq_some_iff.mp hnode
      exact (isKept_direct (h.words direct hdirect)).isJson
    simp [Table.config, hvars, hzones, hdirect]
  fills :=
    .unlessEmpty (fun r xs => { r with vars := xs })
      (congrArg (Except.map _) (namedMap_vars h.vars)) rfl <|
    .unlessEmpty (fun r xs => { r with zones := xs })
      (congrArg (Except.map _) (zones_ofFields h.zones)) rfl <|
    .optional (fun r x => { r with direct := x }) (fun _ => rfl) rfl
      (fun direct hdirect =>
        congrArg (Except.map some) (isKept_direct (h.words direct hdirect)).reads) <|
    .nil _

theorem quiet_field_named {α : Type} {encode : α → Node} {es : List (String × α)} {table : Table}
    {key : String} {check : String → Node → List Finding} {checkEntry : Node → Node → List Finding}
    (d : (Ordered.names table).Nodup)
    (hfind : (Ordered.find? key table).join = namedValue encode es)
    (hcheck : ∀ place entries,
      check place (.map entries) = entries.flatMap fun (k, v) => checkEntry k v)
    (h : ∀ name x, Quiet (checkEntry (.str name) (encode x))) :
    Quiet (field "" key table.written check) := by
  refine quiet_field_written d fun node hnode place => ?_
  rw [hfind] at hnode
  obtain ⟨-, ⟨⟩⟩ := Option.ite_none_left_eq_some.mp hnode
  rw [hcheck]
  refine quiet_flatMap.mpr fun entry hentry => ?_
  obtain ⟨field, hfield, rfl⟩ := List.mem_map.mp hentry
  obtain ⟨e, -, rfl⟩ := List.mem_map.mp hfield
  exact h e.1 e.2

theorem quiet_toDocument {config : Config} (h : config.IsProper) :
    Quiet (Finding.ofDocument config.toDocument) := by
  have d := (describes_config h).distinct_names
  rw [toDocument_eq]
  simp only [Finding.ofDocument, quiet_append, quiet_keys, true_and]
  refine ⟨⟨?_, ?_⟩, ?_⟩
  · exact quiet_field_named d rfl (fun _ _ => rfl) quiet_variableEntry
  · exact quiet_field_named d rfl (fun _ _ => rfl) fun name zone => (isKept_zone zone).quiet _
  · refine quiet_field_written d fun node hnode place => ?_
    obtain ⟨direct, hdirect, rfl⟩ := Option.map_eq_some_iff.mp hnode
    exact (isKept_direct (h.words direct hdirect)).quiet place

theorem errors_eq_nil_of_quiet {findings : List Finding} (h : Quiet findings) :
    (Validation.ofFindings findings).errors = [] := by
  rw [Validation.ofFindings, List.map_eq_nil_iff, List.filter_eq_nil_iff]
  exact fun f hf => by simp [h f hf]

/-- **Written documents.** In the document of a configuration the checker finds no error, and the
document is read as that configuration. -/
theorem Config.ofDocument_toDocument {config : Config} (h : config.IsProper) :
    (Validation.ofDocument config.toDocument).errors = [] ∧
      Config.ofDocument config.toDocument = .ok config := by
  refine ⟨errors_eq_nil_of_quiet (quiet_toDocument h), ?_⟩
  rw [Config.ofDocument, toDocument_eq, Decode.config, (describes_config h).record_eq]
  rfl

/-- A log clause and a zone without contents, a group with one family and one with none, a list without
items, and a direct block that is there and empty. -/
theorem Config.ofDocument_toDocument_shapes :
    let group : RuleGroup :=
      { ipv := ["ipv4"], priority := some (-2147483648), rules := [{ priority := some 7 }] }
    let zone : Zone :=
      { services := [{ value := "ssh" }, { value := "", loop := some "\x7b\x7bl\x7d\x7d" }]
        richRules := [{ log := some {}, forwardPort := some {} }], forward := some false
        forwardPorts := [{ port := "/", protocol := "" }] }
    let config : Config :=
      { vars := [("item", .list []), ("", .scalar "")], zones := [("b", {}), ("a", zone)]
        direct := some { ruleGroups := [group, {}] } }
    let emptied : Config := { config with direct := some {} }
    (Validation.ofDocument config.toDocument).errors = [] ∧
      Config.ofDocument config.toDocument = .ok config ∧
      Config.ofDocument emptied.toDocument = .ok emptied := by
  intro group zone config emptied
  have hgroup : group.HasWords := ⟨by simp [group, IsWord]; decide, by simp [group, IsWord]; decide⟩
  have hempty : ({} : RuleGroup).HasWords := ⟨by simp, by simp⟩
  have hconfig : config.IsProper :=
    { vars := by decide
      zones := by decide
      words := by
        rintro _ ⟨⟩
        exact ⟨by simp, by simp [hgroup, hempty]⟩ }
  have hemptied : emptied.IsProper :=
    { vars := hconfig.vars
      zones := hconfig.zones
      words := by
        rintro _ ⟨⟩
        exact ⟨by simp, by simp⟩ }
  exact ⟨(ofDocument_toDocument hconfig).1, (ofDocument_toDocument hconfig).2,
    (ofDocument_toDocument hemptied).2⟩

end ZoneScript
