import ZoneScript.Proofs.Documents
import ZoneScript.Proofs.TreeDocuments

/-!
# Trees of configurations

The document of a configuration is a plain tree that nests only a few collections. Apart from the names of
variables and zones, the names in it are keys of records, and the reader finds each of those to be a key.
-/

namespace ZoneScript

open Node Table Encode

namespace Yaml

/-- A name that is read and found to be a key. -/
structure IsKeyName (name : String) : Prop where
  readable : IsReadable name
  short : isShortKey name = true

instance (s : String) : Decidable (IsReadable s) :=
  decidable_of_iff (s.toList.all Json.isWritable = true ∧ hasMarker false s.toList = false)
    ⟨fun h => ⟨h.1, h.2⟩, fun h => ⟨h.writable, h.unmarked⟩⟩

instance (name : String) : Decidable (IsKeyName name) :=
  decidable_of_iff (IsReadable name ∧ isShortKey name = true)
    ⟨fun h => ⟨h.1, h.2⟩, fun h => ⟨h.readable, h.short⟩⟩

end Yaml

open Yaml (IsKeyName IsReadable)

/-! ## Trees with good names -/

/-- A plain tree in which the names of all fields are good. -/
structure Node.IsNamed (good : String → Prop) (depth : Nat) (node : Node) : Prop where
  plain : node.IsPlain depth
  names : ∀ name ∈ node.names, good name

namespace Node

variable {good : String → Prop} {depth : Nat}

theorem IsNamed.mono {good' : String → Prop} {node : Node} (h : node.IsNamed good depth)
    (hgood : ∀ name, good name → good' name) : node.IsNamed good' depth :=
  ⟨h.plain, fun name hname => hgood name (h.names name hname)⟩

theorem isNamed_str (s : String) : (Node.str s).IsNamed good depth :=
  ⟨.str s, by simp [names]⟩

theorem isNamed_bool (b : Bool) : (Node.bool b).IsNamed good depth :=
  ⟨.bool b, by simp [names]⟩

theorem isNamed_int {n : Int} (h : IsWord n) : (Node.int n).IsNamed good depth :=
  ⟨.int (by rw [Text.fitsBits, Finding.fitsSigned_mono h]; rfl), by simp [names]⟩

theorem isNamed_seq {items : List Node} (each : ∀ item ∈ items, item.IsNamed good depth) :
    (Node.seq items).IsNamed good (depth + 1) where
  plain := .seq fun item hitem => (each item hitem).plain
  names := by
    rw [names, itemNames_eq]
    intro name hname
    obtain ⟨item, hitem, hname⟩ := List.mem_flatMap.mp hname
    exact (each item hitem).names name hname

theorem isNamed_texts (texts : List String) : (Node.seq (texts.map .str)).IsNamed good (depth + 1) :=
  isNamed_seq (List.forall_mem_map.mpr fun text _ => isNamed_str text)

theorem isNamed_fields {fields : List (String × Node)} (distinct : (Ordered.names fields).Nodup)
    (each : ∀ field ∈ fields, good field.1 ∧ field.2.IsNamed good depth) :
    (Node.map (ofFields fields)).IsNamed good (depth + 1) where
  plain := .map distinct fun field hfield => (each field hfield).2.plain
  names := by
    rw [names, entryNames_ofFields]
    intro name hname
    obtain ⟨field, hfield, hname⟩ := List.mem_flatMap.mp hname
    obtain ⟨hkey, hvalue⟩ := each field hfield
    rcases List.mem_cons.mp hname with rfl | hname
    · exact hkey
    · exact hvalue.names name hname

end Node

namespace Table

variable {good : String → Prop} {depth : Nat}

/-- A value that is absent or a plain tree with good names. -/
def IsNamedValue (good : String → Prop) (depth : Nat) (value : Option Node) : Prop :=
  ∀ node ∈ value, node.IsNamed good depth

theorem isNamed_written {table : Table} (keys : List String) (hnames : Ordered.names table = keys)
    (distinct : keys.Nodup) (hkeys : ∀ key ∈ keys, good key)
    (each : ∀ row ∈ table, IsNamedValue good depth row.2) :
    (Node.map table.written).IsNamed good (depth + 1) := by
  have hsub := names_filterMap_sublist table
  rw [hnames] at hsub
  refine isNamed_fields (distinct.sublist hsub) fun field hfield => ?_
  refine ⟨hkeys _ (hsub.subset (List.mem_map_of_mem hfield)), ?_⟩
  obtain ⟨⟨key, value⟩, hrow, hvalue⟩ := List.mem_filterMap.mp hfield
  obtain ⟨node, hnode, rfl⟩ := Option.map_eq_some_iff.mp hvalue
  exact each _ hrow node hnode

theorem mem_names_written {table : Table} {key name : String} {node : Node} (hrow : (key, some node) ∈ table)
    (hname : name ∈ node.names) : name ∈ (Node.map table.written).names := by
  rw [Node.names, written, entryNames_ofFields]
  refine List.mem_flatMap.mpr ⟨(key, node), List.mem_filterMap.mpr ⟨_, hrow, rfl⟩, ?_⟩
  exact List.mem_cons_of_mem _ hname

@[simp]
theorem isNamedValue_some {node : Node} : IsNamedValue good depth (some node) ↔ node.IsNamed good depth := by
  simp [IsNamedValue]

theorem isNamedValue_map {α : Type} {encode : α → Node} {o : Option α}
    (h : ∀ x ∈ o, (encode x).IsNamed good depth) : IsNamedValue good depth (o.map encode) := by
  intro node hnode
  obtain ⟨x, hx, rfl⟩ := Option.map_eq_some_iff.mp hnode
  exact h x hx

@[simp]
theorem isNamedValue_text (o : Option String) : IsNamedValue good depth (o.map .str) :=
  isNamedValue_map fun s _ => isNamed_str s

@[simp]
theorem isNamedValue_flag (o : Option Bool) : IsNamedValue good depth (o.map .bool) :=
  isNamedValue_map fun b _ => isNamed_bool b

@[simp]
theorem isNamedValue_switch (b : Bool) : IsNamedValue good depth (switchValue b) := by
  cases b
  · simp [IsNamedValue, switchValue]
  · exact isNamedValue_some.mpr (isNamed_bool true)

theorem isNamedValue_list {α : Type} {encode : α → Node} {xs : List α}
    (h : ∀ x ∈ xs, (encode x).IsNamed good depth) : IsNamedValue good (depth + 1) (listValue encode xs) := by
  intro node hnode
  obtain ⟨-, ⟨⟩⟩ := Option.ite_none_left_eq_some.mp hnode
  exact isNamed_seq (List.forall_mem_map.mpr h)

theorem isNamedValue_named {α : Type} {encode : α → Node} {es : List (String × α)}
    (distinct : (Ordered.names es).Nodup) (h : ∀ e ∈ es, good e.1 ∧ (encode e.2).IsNamed good depth) :
    IsNamedValue good (depth + 1) (namedValue encode es) := by
  intro node hnode
  obtain ⟨-, ⟨⟩⟩ := Option.ite_none_left_eq_some.mp hnode
  exact isNamed_fields (by rwa [Ordered.names_mapValues]) (List.forall_mem_map.mpr h)

theorem exists_names_namedValue {α : Type} (encode : α → Node) {es : List (String × α)} {name : String}
    (h : name ∈ Ordered.names es) : ∃ node, namedValue encode es = some node ∧ name ∈ node.names := by
  obtain ⟨e, he, rfl⟩ := List.mem_map.mp h
  refine ⟨.map (ofFields (Ordered.mapValues encode es)), if_neg ?_, ?_⟩
  · rw [Bool.not_eq_true, List.isEmpty_eq_false_iff]
    exact List.ne_nil_of_mem he
  · rw [Node.names, entryNames_ofFields]
    exact List.mem_flatMap.mpr ⟨_, List.mem_map_of_mem he, List.mem_cons_self⟩

end Table

/-! ## Zones -/

section

variable {depth : Nat}

theorem isNamed_templateVariable (v : Variable) :
    (Encode.templateVariable v).IsNamed IsKeyName (depth + 1) := by
  cases v with
  | scalar value => exact isNamed_str value
  | list items => exact isNamed_texts items

theorem isNamed_valueItem (item : ValueItem) : (Encode.valueItem item).IsNamed IsKeyName (depth + 1) := by
  obtain ⟨value, _ | loop⟩ := item
  · exact isNamed_str value
  · have h : (Node.map (Table.valueItem ⟨value, some loop⟩).written).IsNamed IsKeyName (depth + 1) :=
      isNamed_written Keys.valueItem rfl (by decide) (by decide) (by simp [Table.valueItem, isNamed_str])
    exact h

theorem isNamed_portItem (item : PortItem) : (Encode.portItem item).IsNamed IsKeyName (depth + 1) := by
  rw [portItem_eq]
  exact isNamed_written Keys.port rfl (by decide) (by decide) (by simp [Table.portItem, isNamed_str])

theorem isNamed_forwardPort (item : ForwardPort) :
    (Encode.forwardPort item).IsNamed IsKeyName (depth + 1) := by
  rw [forwardPort_eq]
  exact isNamed_written Keys.forwardPort rfl (by decide) (by decide) (by simp [Table.forwardPort, isNamed_str])

theorem isNamed_richLog (log : RichLog) : (Encode.richLog log).IsNamed IsKeyName (depth + 1) := by
  rw [richLog_eq]
  exact isNamed_written Keys.richLog rfl (by decide) (by decide) (by simp [Table.richLog])

theorem isNamed_richForwardPort (item : RichForwardPort) :
    (Encode.richForwardPort item).IsNamed IsKeyName (depth + 1) := by
  rw [richForwardPort_eq]
  exact isNamed_written Keys.richForwardPort rfl (by decide) (by decide)
    (by simp [Table.richForwardPort, isNamed_str])

theorem isNamed_richSourcePort (item : RichSourcePort) :
    (Encode.richSourcePort item).IsNamed IsKeyName (depth + 1) := by
  have h : (Node.map (Table.richSourcePort item).written).IsNamed IsKeyName (depth + 1) :=
    isNamed_written Keys.richSourcePort rfl (by decide) (by decide) (by simp [Table.richSourcePort, isNamed_str])
  exact h

theorem isNamed_richRule (rule : RichRule) : (Encode.richRule rule).IsNamed IsKeyName (depth + 2) := by
  have hforwardPort : IsNamedValue IsKeyName (depth + 1) (rule.forwardPort.map Encode.richForwardPort) :=
    isNamedValue_map fun item _ => isNamed_richForwardPort item
  have hsourcePort : IsNamedValue IsKeyName (depth + 1) (rule.sourcePort.map Encode.richSourcePort) :=
    isNamedValue_map fun item _ => isNamed_richSourcePort item
  have hlog : IsNamedValue IsKeyName (depth + 1) (rule.log.map Encode.richLog) :=
    isNamedValue_map fun log _ => isNamed_richLog log
  rw [richRule_eq]
  exact isNamed_written Keys.richRule rfl (by decide) (by decide)
    (by simp [Table.richRule, hforwardPort, hsourcePort, hlog])

theorem isNamed_zone (zone : Zone) : (Encode.zone zone).IsNamed IsKeyName (depth + 4) := by
  have hvalues (items : List ValueItem) :
      IsNamedValue IsKeyName (depth + 3) (listValue Encode.valueItem items) :=
    isNamedValue_list fun item _ => isNamed_valueItem item
  have hports (items : List PortItem) :
      IsNamedValue IsKeyName (depth + 3) (listValue Encode.portItem items) :=
    isNamedValue_list fun item _ => isNamed_portItem item
  have hrules : IsNamedValue IsKeyName (depth + 3) (listValue Encode.richRule zone.richRules) :=
    isNamedValue_list fun rule _ => isNamed_richRule rule
  have hforwardPorts : IsNamedValue IsKeyName (depth + 3) (listValue Encode.forwardPort zone.forwardPorts) :=
    isNamedValue_list fun item _ => isNamed_forwardPort item
  rw [zone_eq]
  exact isNamed_written Keys.zone rfl (by decide) (by decide)
    (by simp [Table.zone, hvalues, hports, hrules, hforwardPorts])

/-! ## The direct block -/

theorem isNamedValue_priority {o : Option Int} (h : ∀ n ∈ o, IsWord n) :
    IsNamedValue IsKeyName depth (o.map .int) :=
  isNamedValue_map fun n hn => isNamed_int (h n hn)

theorem isNamed_directChain (chain : DirectChain) :
    (Encode.directChain chain).IsNamed IsKeyName (depth + 1) := by
  have h : (Node.map (Table.directChain chain).written).IsNamed IsKeyName (depth + 1) :=
    isNamed_written Keys.directChain rfl (by decide) (by decide) (by simp [Table.directChain, isNamed_str])
  exact h

theorem isNamed_directRule {rule : DirectRule} (hpriority : IsWord rule.priority) :
    (Encode.directRule rule).IsNamed IsKeyName (depth + 1) := by
  rw [directRule_eq]
  exact isNamed_written Keys.directRule rfl (by decide) (by decide)
    (by simp [Table.directRule, isNamed_str, isNamed_int hpriority])

theorem isNamed_passthrough (item : Passthrough) :
    (Encode.passthrough item).IsNamed IsKeyName (depth + 1) := by
  rw [passthrough_eq]
  exact isNamed_written Keys.passthrough rfl (by decide) (by decide) (by simp [Table.passthrough, isNamed_str])

theorem isNamed_groupRule {rule : GroupRule} (hpriority : ∀ n ∈ rule.priority, IsWord n) :
    (Encode.groupRule rule).IsNamed IsKeyName (depth + 1) := by
  rw [groupRule_eq]
  exact isNamed_written Keys.groupRule rfl (by decide) (by decide)
    (by simp [Table.groupRule, isNamed_str, isNamedValue_priority hpriority])

theorem isNamed_groupPassthrough (item : GroupPassthrough) :
    (Encode.groupPassthrough item).IsNamed IsKeyName (depth + 1) := by
  rw [groupPassthrough_eq]
  exact isNamed_written Keys.groupPassthrough rfl (by decide) (by decide)
    (by simp [Table.groupPassthrough, isNamed_str])

theorem isNamed_families (families : List String) :
    (Encode.families families).IsNamed IsKeyName (depth + 1) := by
  rcases families_cases families with ⟨family, -, h⟩ | h <;> rw [h]
  · exact isNamed_str family
  · exact isNamed_texts families

theorem isNamed_ruleGroup {group : RuleGroup} (hwords : group.HasWords) :
    (Encode.ruleGroup group).IsNamed IsKeyName (depth + 3) := by
  have hrules : IsNamedValue IsKeyName (depth + 2) (listValue Encode.groupRule group.rules) :=
    isNamedValue_list fun rule hrule => isNamed_groupRule (hwords.rules rule hrule)
  have hpassthroughs :
      IsNamedValue IsKeyName (depth + 2) (listValue Encode.groupPassthrough group.passthroughs) :=
    isNamedValue_list fun item _ => isNamed_groupPassthrough item
  rw [ruleGroup_eq]
  exact isNamed_written Keys.ruleGroup rfl (by decide) (by decide)
    (by simp [Table.ruleGroup, isNamed_str, isNamed_families, isNamedValue_priority hwords.priority, hrules,
      hpassthroughs])

theorem isNamed_direct {direct : Direct} (hwords : direct.HasWords) :
    (Encode.direct direct).IsNamed IsKeyName (depth + 5) := by
  have hchains : IsNamedValue IsKeyName (depth + 4) (listValue Encode.directChain direct.chains) :=
    isNamedValue_list fun chain _ => isNamed_directChain chain
  have hrules : IsNamedValue IsKeyName (depth + 4) (listValue Encode.directRule direct.rules) :=
    isNamedValue_list fun rule hrule => isNamed_directRule (hwords.rules rule hrule)
  have hpassthroughs : IsNamedValue IsKeyName (depth + 4) (listValue Encode.passthrough direct.passthroughs) :=
    isNamedValue_list fun item _ => isNamed_passthrough item
  have hgroups : IsNamedValue IsKeyName (depth + 4) (listValue Encode.ruleGroup direct.ruleGroups) :=
    isNamedValue_list fun group hgroup => isNamed_ruleGroup (hwords.ruleGroups group hgroup)
  rw [direct_eq]
  exact isNamed_written Keys.direct rfl (by decide) (by decide)
    (by simp [Table.direct, hchains, hrules, hpassthroughs, hgroups])

/-! ## Configurations -/

/-- The names that a configuration gives to its variables and zones. -/
def Config.givenNames (config : Config) : List String :=
  Ordered.names config.vars ++ Ordered.names config.zones

variable {config : Config}

theorem isNamed_toDocument (h : config.IsProper) :
    config.toDocument.IsNamed (fun name => IsKeyName name ∨ name ∈ config.givenNames) (depth + 6) := by
  have hvars : IsNamedValue (fun name => IsKeyName name ∨ name ∈ config.givenNames) (depth + 5)
      (namedValue Encode.templateVariable config.vars) :=
    isNamedValue_named h.vars fun e he =>
      ⟨.inr (List.mem_append_left _ (List.mem_map_of_mem he)), (isNamed_templateVariable e.2).mono fun _ => .inl⟩
  have hzones : IsNamedValue (fun name => IsKeyName name ∨ name ∈ config.givenNames) (depth + 5)
      (namedValue Encode.zone config.zones) :=
    isNamedValue_named h.zones fun e he =>
      ⟨.inr (List.mem_append_right _ (List.mem_map_of_mem he)), (isNamed_zone e.2).mono fun _ => .inl⟩
  have hdirect : IsNamedValue (fun name => IsKeyName name ∨ name ∈ config.givenNames) (depth + 5)
      (config.direct.map Encode.direct) :=
    isNamedValue_map fun direct hdirect => (isNamed_direct (h.words direct hdirect)).mono fun _ => .inl
  have hkeys : ∀ key ∈ Keys.topLevel, IsKeyName key := by decide
  rw [toDocument_eq]
  exact isNamed_written Keys.topLevel rfl (by decide) (fun key hkey => .inl (hkeys key hkey))
    (by simp [Table.config, hvars, hzones, hdirect])

theorem isPlain_toDocument (h : config.IsProper) : config.toDocument.IsPlain Yaml.Draft.maxDepth :=
  have hnamed : config.toDocument.IsNamed _ (122 + 6) := isNamed_toDocument h
  hnamed.plain

theorem givenNames_subset (config : Config) : config.givenNames ⊆ config.toDocument.names := by
  rw [toDocument_eq]
  intro name hname
  rcases List.mem_append.mp hname with hname | hname
  · obtain ⟨node, hnode, hname⟩ := exists_names_namedValue Encode.templateVariable hname
    have hrow : ("variables", some node) ∈ Table.config config := by simp [Table.config, hnode]
    exact mem_names_written hrow hname
  · obtain ⟨node, hnode, hname⟩ := exists_names_namedValue Encode.zone hname
    have hrow : ("zones", some node) ∈ Table.config config := by simp [Table.config, hnode]
    exact mem_names_written hrow hname

theorem isKeyName_names_iff (h : config.IsProper) :
    (∀ name ∈ config.toDocument.names, IsKeyName name) ↔ ∀ name ∈ config.givenNames, IsKeyName name := by
  have hnamed : config.toDocument.IsNamed _ (0 + 6) := isNamed_toDocument h
  exact ⟨fun hall name hname => hall name (givenNames_subset config hname),
    fun hgiven name hname => (hnamed.names name hname).elim id (hgiven name)⟩

end

end ZoneScript
