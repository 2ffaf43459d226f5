import ZoneScript.Proofs.Records

/-!
# Zones as they are written

The tree of an item is read as that item again, and the checker finds no error in it. Each kind of
item is written as a table of its fields or as a text; from the table follow the reading, which fills
the item field by field, and the checks, which look up one key each. A zone is put together from its
items.
-/

namespace ZoneScript

open Node Decode Table Encode

namespace Finding

/-! ## Checks of what was written -/

theorem quiet_nil : Quiet [] := by
  simp [Quiet]

theorem quiet_value (path : String) (check : String → Lexical.Result Unit) (text : String) :
    Quiet (value path check text) := by
  unfold value
  split
  · exact quiet_nil
  · split
    · exact quiet_nil
    · simp [Issue.isWarning]

theorem quiet_keys (path : String) (valid : List String) (what : String) (entries : Node.Entries) :
    Quiet (keys path valid what entries) := by
  intro f hf
  obtain ⟨⟨key, value⟩, -, hf⟩ := List.mem_filterMap.mp hf
  obtain ⟨-, ⟨⟩⟩ := Option.ite_none_left_eq_some.mp hf
  rfl

theorem quiet_required (path : String) (wanted : List String) (what : String)
    (entries : Node.Entries) : Quiet (required path wanted what entries) := by
  intro f hf
  obtain ⟨key, -, rfl⟩ := List.mem_map.mp hf
  rfl

theorem quiet_items_of {path : String} {check : String → Node → List Finding} {index : Nat}
    {nodes : List Node} (h : ∀ node ∈ nodes, ∀ place, Quiet (check place node)) :
    Quiet (items path check index nodes) := by
  induction nodes generalizing index with
  | nil => exact quiet_nil
  | cons node nodes ih =>
    obtain ⟨hnode, hnodes⟩ := List.forall_mem_cons.mp h
    exact (quiet_append _ _).mpr ⟨hnode _, ih hnodes⟩

section

variable {table : Table} (distinct : (Ordered.names table).Nodup) {path key : String}
include distinct

theorem quiet_field_written {check : String → Node → List Finding}
    (h : ∀ node ∈ (Ordered.find? key table).join, ∀ place, Quiet (check place node)) :
    Quiet (field path key table.written check) := by
  rw [field, find?_written distinct]
  cases hnode : (Ordered.find? key table).join with
  | none => exact quiet_nil
  | some node => exact h node hnode _

theorem quiet_checked {check : String → Lexical.Result Unit}
    (h : IsText (Ordered.find? key table).join) : Quiet (checked path key check table.written) := by
  refine quiet_field_written distinct fun node hnode place => ?_
  obtain ⟨s, rfl⟩ := h node hnode
  exact quiet_value place check s

theorem quiet_scalars {keys : List String} (h : ∀ key ∈ keys, IsText (Ordered.find? key table).join) :
    Quiet (scalars path keys table.written) :=
  quiet_flatMap.mpr fun key hkey => quiet_checked distinct (h key hkey)

theorem quiet_flag (h : IsFlag (Ordered.find? key table).join) :
    Quiet (flag path key table.written) := by
  refine quiet_field_written distinct fun node hnode place => ?_
  obtain ⟨b, rfl⟩ := h node hnode
  exact quiet_nil

theorem quiet_loop (h : IsText (Ordered.find? "loop" table).join) :
    Quiet (loop path table.written) := by
  refine quiet_field_written distinct fun node hnode place => ?_
  obtain ⟨s, rfl⟩ := h node hnode
  exact quiet_nil

theorem quiet_priority
    (h : ∀ node ∈ (Ordered.find? "priority" table).join, isPriority node = true) :
    Quiet (priority path table.written) := by
  refine quiet_field_written distinct fun node hnode place => ?_
  rw [if_pos (h node hnode)]
  exact quiet_nil

theorem quiet_list {α : Type} {encode : α → Node} {xs : List α}
    {check : String → Node → List Finding}
    (hfind : (Ordered.find? key table).join = Encode.listValue encode xs)
    (h : ∀ x ∈ xs, ∀ place, Quiet (check place (encode x))) :
    Quiet (list path key table.written check) := by
  refine quiet_field_written distinct fun node hnode place => ?_
  rw [hfind] at hnode
  obtain ⟨-, ⟨⟩⟩ := Option.ite_none_left_eq_some.mp hnode
  exact quiet_items_of (List.forall_mem_map.mpr h)

theorem quiet_portField {what : String} (h : IsText (Ordered.find? "port" table).join) :
    Quiet (portField path what table.written) := by
  unfold portField
  split
  · exact quiet_checked distinct h
  · simp [Issue.isWarning]

end

end Finding

open Finding

/-! ## What is kept -/

/-- The tree of `x` is a JSON tree, it is read as `x` again, and the checker finds no error in it. -/
structure IsKept {α : Type} (encode : α → Node) (read : Node → Decode.Result α)
    (check : String → Node → List Finding) (x : α) : Prop where
  isJson : (encode x).IsJson
  reads : read (encode x) = .ok x
  quiet (path : String) : Quiet (check path (encode x))

theorem Decode.Describes.isKept {σ : Type} {encode : σ → Node} {keys : List String}
    {set : String → Node → σ → Decode.Result σ} {empty x : σ} {table : Table}
    {check : String → Node → List Finding} (h : Describes keys set empty table x)
    (hencode : encode x = .map table.written) (style : Style) (name : String)
    (hquiet : ∀ path, Quiet (check path (.map table.written))) :
    IsKept encode (record style name keys set empty) check x where
  isJson := hencode ▸ h.isJson_map
  reads := hencode ▸ h.record_eq style name
  quiet := hencode ▸ hquiet

theorem Decode.Describes.isKept_shaped {σ : Type} {encode : σ → Node} {keys : List String}
    {set : String → Node → σ → Decode.Result σ} {empty x : σ} {table : Table}
    {check : String → Node → List Finding} (h : Describes keys set empty table x)
    (hencode : encode x = .map table.written) {name : String} {shapes : Node → Option σ}
    (hshapes : shapes (.map table.written) = some x)
    (hquiet : ∀ path, Quiet (check path (.map table.written))) :
    IsKept encode (shaped name shapes) check x where
  isJson := hencode ▸ h.isJson_map
  reads := hencode ▸ shaped_of_isJson h.isJson_map hshapes
  quiet := hencode ▸ hquiet

/-! ## The items of a zone -/

namespace Table

def valueItem (item : ValueItem) : Table :=
  [("value", some (.str item.value)), ("loop", item.loop.map .str)]

def portItem (item : PortItem) : Table :=
  [("port", some (.str item.port)), ("protocol", some (.str item.protocol)),
    ("loop", item.loop.map .str)]

def forwardPort (item : ForwardPort) : Table :=
  [("port", some (.str item.port)), ("protocol", some (.str item.protocol)),
    ("to_port", item.toPort.map .str), ("to_addr", item.toAddr.map .str),
    ("loop", item.loop.map .str)]

end Table

theorem describes_valueItem (item : ValueItem) :
    Describes Keys.valueItem setValueItem { value := "" } (Table.valueItem item) item where
  names := rfl
  distinct := by decide
  isJson := by simp [Table.valueItem, IsJson.str]
  fills :=
    .put rfl <|
    .optional (fun r x => { r with loop := x }) (fun _ => rfl) rfl (fun _ _ => rfl) <|
    .nil _

theorem isKept_valueItem (check : String → Lexical.Result Unit) (item : ValueItem) :
    IsKept Encode.valueItem (shaped "Repr" valueItem?) (Finding.valueItem check) item := by
  obtain ⟨value, _ | loop⟩ := item
  · exact ⟨.str value, rfl, fun path => quiet_value path check value⟩
  · have h := describes_valueItem ⟨value, some loop⟩
    refine ⟨h.isJson_map, shaped_of_isJson h.isJson_map h.itemRecord_eq, fun path => ?_⟩
    refine (quiet_append _ _).mpr ⟨(quiet_append _ _).mpr ⟨quiet_keys _ _ _ _, ?_⟩, ?_⟩
    · exact quiet_loop h.distinct_names (isText_map (some loop))
    · exact quiet_value path check value

theorem portItem_eq (item : PortItem) :
    Encode.portItem item = .map (Table.portItem item).written := by
  simp only [Encode.portItem, entry_eq, entry_cons, optional_eq, ← written_append, List.cons_append,
    List.nil_append, Table.portItem]

theorem describes_portItem (item : PortItem) :
    Describes Keys.port setPortItem { port := "", protocol := PortProtocol.standard.name }
      (Table.portItem item) item where
  names := rfl
  distinct := by decide
  isJson := by simp [Table.portItem, IsJson.str]
  fills :=
    .put rfl <|
    .put rfl <|
    .optional (fun r x => { r with loop := x }) (fun _ => rfl) rfl (fun _ _ => rfl) <|
    .nil _

theorem isKept_portItem (item : PortItem) :
    IsKept Encode.portItem (shaped "Repr" portItem?) Finding.portItem item := by
  have h := describes_portItem item
  refine h.isKept_shaped (portItem_eq item) h.itemRecord_eq fun path => ?_
  simp only [Finding.portItem, quiet_append, quiet_keys, true_and]
  exact ⟨⟨quiet_loop h.distinct_names (isText_map _),
    quiet_portField h.distinct_names (isText_some _)⟩,
    quiet_checked h.distinct_names (isText_some _)⟩

theorem forwardPort_eq (item : ForwardPort) :
    Encode.forwardPort item = .map (Table.forwardPort item).written := by
  simp only [Encode.forwardPort, entry_eq, entry_cons, optional_eq, ← written_append,
    List.cons_append, List.nil_append, Table.forwardPort]

theorem describes_forwardPort (item : ForwardPort) :
    Describes Keys.forwardPort setForwardPort
      { port := "", protocol := PortProtocol.standard.name } (Table.forwardPort item) item where
  names := rfl
  distinct := by decide
  isJson := by simp [Table.forwardPort, IsJson.str]
  fills :=
    .put rfl <|
    .put rfl <|
    .optional (fun r x => { r with toPort := x }) (fun _ => rfl) rfl (fun _ _ => rfl) <|
    .optional (fun r x => { r with toAddr := x }) (fun _ => rfl) rfl (fun _ _ => rfl) <|
    .optional (fun r x => { r with loop := x }) (fun _ => rfl) rfl (fun _ _ => rfl) <|
    .nil _

theorem isKept_forwardPort (item : ForwardPort) :
    IsKept Encode.forwardPort Decode.forwardPort Finding.forwardPort item := by
  have h := describes_forwardPort item
  constructor <;> rw [forwardPort_eq]
  case isJson => exact h.isJson_map
  case reads => exact shaped_of_isJson h.isJson_map h.itemRecord_eq
  case quiet =>
    intro path
    simp only [Finding.forwardPort, quiet_append, quiet_keys, true_and]
    exact ⟨⟨⟨⟨quiet_loop h.distinct_names (isText_map _),
      quiet_portField h.distinct_names (isText_some _)⟩,
      quiet_checked h.distinct_names (isText_some _)⟩,
      quiet_checked h.distinct_names (isText_map _)⟩,
      quiet_checked h.distinct_names (isText_map _)⟩

/-! ## Rich rules -/

namespace Table

def richLog (log : RichLog) : Table :=
  [("prefix", log.label.map .str), ("level", log.level.map .str), ("limit", log.limit.map .str)]

def richForwardPort (item : RichForwardPort) : Table :=
  [("port", some (.str item.port)), ("protocol", some (.str item.protocol)),
    ("to_port", item.toPort.map .str), ("to_addr", item.toAddr.map .str)]

def richSourcePort (item : RichSourcePort) : Table :=
  [("port", some (.str item.port)), ("protocol", some (.str item.protocol))]

def richRule (rule : RichRule) : Table :=
  [("family", rule.family.map .str), ("source", rule.source.map .str),
    ("source_invert", switchValue rule.sourceInvert), ("destination", rule.destination.map .str),
    ("destination_invert", switchValue rule.destinationInvert), ("service", rule.service.map .str),
    ("port", rule.port.map .str), ("protocol", rule.protocol.map .str),
    ("icmp_block", rule.icmpBlock.map .str), ("icmp_type", rule.icmpType.map .str),
    ("masquerade", switchValue rule.masquerade),
    ("forward_port", rule.forwardPort.map Encode.richForwardPort),
    ("source_port", rule.sourcePort.map Encode.richSourcePort),
    ("log", rule.log.map Encode.richLog), ("audit", switchValue rule.audit),
    ("action", rule.action.map .str), ("reject_type", rule.rejectType.map .str),
    ("mark_set", rule.markSet.map .str), ("loop", rule.loop.map .str)]

end Table

/-- How a clause of a rule is checked: all its fields are scalars. -/
def Finding.clause (what : String) (valid : List String) : String → Node → List Finding :=
  Finding.mapping what fun place inner =>
    Finding.keys place valid what inner ++ Finding.scalars place valid inner

theorem quiet_clause {table : Table} {keys : List String} (distinct : (Ordered.names table).Nodup)
    (h : ∀ key ∈ keys, IsText (Ordered.find? key table).join) (path what : String) :
    Quiet (Finding.clause what keys path (.map table.written)) :=
  (quiet_append _ _).mpr ⟨quiet_keys _ _ _ _, quiet_scalars distinct h⟩

theorem richLog_eq (log : RichLog) : Encode.richLog log = .map (Table.richLog log).written := by
  simp only [Encode.richLog, optional_eq, ← written_append, List.cons_append, List.nil_append,
    Table.richLog]

theorem isKept_richLog (style : Style) (log : RichLog) :
    IsKept Encode.richLog (record style "RichLog" Keys.richLog setRichLog {})
      (Finding.clause "log" Keys.richLog) log := by
  have h : Describes Keys.richLog setRichLog {} (Table.richLog log) log :=
    { names := rfl
      distinct := by decide
      isJson := by simp [Table.richLog]
      fills :=
        .optional (fun r x => { r with label := x }) (fun _ => rfl) rfl (fun _ _ => rfl) <|
        .optional (fun r x => { r with level := x }) (fun _ => rfl) rfl (fun _ _ => rfl) <|
        .optional (fun r x => { r with limit := x }) (fun _ => rfl) rfl (fun _ _ => rfl) <|
        .nil _ }
  refine h.isKept (richLog_eq log) style _ fun path => quiet_clause h.distinct_names ?_ path _
  simp only [Keys.richLog, List.forall_mem_cons]
  exact ⟨isText_map _, isText_map _, isText_map _, List.forall_mem_nil _⟩

theorem richForwardPort_eq (item : RichForwardPort) :
    Encode.richForwardPort item = .map (Table.richForwardPort item).written := by
  simp only [Encode.richForwardPort, entry_eq, entry_cons, optional_eq, ← written_append,
    List.cons_append, List.nil_append, Table.richForwardPort]

theorem isKept_richForwardPort (style : Style) (item : RichForwardPort) :
    IsKept Encode.richForwardPort
      (record style "RichForwardPort" Keys.richForwardPort setRichForwardPort {})
      (Finding.clause "forward_port" Keys.richForwardPort) item := by
  have h : Describes Keys.richForwardPort setRichForwardPort {} (Table.richForwardPort item) item :=
    { names := rfl
      distinct := by decide
      isJson := by simp [Table.richForwardPort, IsJson.str]
      fills :=
        .put rfl <|
        .put rfl <|
        .optional (fun r x => { r with toPort := x }) (fun _ => rfl) rfl (fun _ _ => rfl) <|
        .optional (fun r x => { r with toAddr := x }) (fun _ => rfl) rfl (fun _ _ => rfl) <|
        .nil _ }
  refine h.isKept (richForwardPort_eq item) style _ fun path =>
    quiet_clause h.distinct_names ?_ path _
  simp only [Keys.richForwardPort, List.forall_mem_cons]
  exact ⟨isText_some _, isText_some _, isText_map _, isText_map _, List.forall_mem_nil _⟩

theorem isKept_richSourcePort (style : Style) (item : RichSourcePort) :
    IsKept Encode.richSourcePort
      (record style "RichPortSpec" Keys.richSourcePort setRichSourcePort {})
      (Finding.clause "source_port" Keys.richSourcePort) item := by
  have h : Describes Keys.richSourcePort setRichSourcePort {} (Table.richSourcePort item) item :=
    { names := rfl
      distinct := by decide
      isJson := by simp [Table.richSourcePort, IsJson.str]
      fills := .put rfl <| .put rfl <| .nil _ }
  refine h.isKept rfl style _ fun path => quiet_clause h.distinct_names ?_ path _
  simp only [Keys.richSourcePort, List.forall_mem_cons]
  exact ⟨isText_some _, isText_some _, List.forall_mem_nil _⟩

theorem richRule_eq (rule : RichRule) :
    Encode.richRule rule = .map (Table.richRule rule).written := by
  simp only [Encode.richRule, optional_eq, switch_eq, part_eq, ← written_append, List.cons_append,
    List.nil_append, Table.richRule]

theorem describes_richRule (style : Style) (rule : RichRule) :
    Describes Keys.richRule (setRichRule style) {} (Table.richRule rule) rule where
  names := rfl
  distinct := by decide
  isJson := by
    have hforward := isJsonValue_map fun item => (isKept_richForwardPort style item).isJson
    have hsource := isJsonValue_map fun item => (isKept_richSourcePort style item).isJson
    have hlog := isJsonValue_map fun log => (isKept_richLog style log).isJson
    simp [Table.richRule, hforward, hsource, hlog]
  fills :=
    .optional (fun r x => { r with family := x }) (fun _ => rfl) rfl (fun _ _ => rfl) <|
    .optional (fun r x => { r with source := x }) (fun _ => rfl) rfl (fun _ _ => rfl) <|
    .switch (fun r x => { r with sourceInvert := x }) (fun _ => rfl) rfl <|
    .optional (fun r x => { r with destination := x }) (fun _ => rfl) rfl (fun _ _ => rfl) <|
    .switch (fun r x => { r with destinationInvert := x }) (fun _ => rfl) rfl <|
    .optional (fun r x => { r with service := x }) (fun _ => rfl) rfl (fun _ _ => rfl) <|
    .optional (fun r x => { r with port := x }) (fun _ => rfl) rfl (fun _ _ => rfl) <|
    .optional (fun r x => { r with protocol := x }) (fun _ => rfl) rfl (fun _ _ => rfl) <|
    .optional (fun r x => { r with icmpBlock := x }) (fun _ => rfl) rfl (fun _ _ => rfl) <|
    .optional (fun r x => { r with icmpType := x }) (fun _ => rfl) rfl (fun _ _ => rfl) <|
    .switch (fun r x => { r with masquerade := x }) (fun _ => rfl) rfl <|
    .optional (fun r x => { r with forwardPort := x }) (fun _ => rfl) rfl
      (fun x _ => congrArg (Except.map some) (isKept_richForwardPort style x).reads) <|
    .optional (fun r x => { r with sourcePort := x }) (fun _ => rfl) rfl
      (fun x _ => congrArg (Except.map some) (isKept_richSourcePort style x).reads) <|
    .optional (fun r x => { r with log := x }) (fun _ => rfl) rfl
      (fun x _ => congrArg (Except.map some) (isKept_richLog style x).reads) <|
    .switch (fun r x => { r with audit := x }) (fun _ => rfl) rfl <|
    .optional (fun r x => { r with action := x }) (fun _ => rfl) rfl (fun _ _ => rfl) <|
    .optional (fun r x => { r with rejectType := x }) (fun _ => rfl) rfl (fun _ _ => rfl) <|
    .optional (fun r x => { r with markSet := x }) (fun _ => rfl) rfl (fun _ _ => rfl) <|
    .optional (fun r x => { r with loop := x }) (fun _ => rfl) rfl (fun _ _ => rfl) <|
    .nil _

theorem quiet_getD {α : Type} {f : α → List Finding} (h : ∀ x, Quiet (f x)) (o : Option α) :
    Quiet ((o.map f).getD []) := by
  cases o with
  | none => exact quiet_nil
  | some x => exact h x

theorem quiet_ruleValues (path : String) (rule : RichRule) : Quiet (ruleValues path rule) := by
  have hvalue (key : String) (check : String → Lexical.Result Unit) (text : Option String) :
      Quiet (ruleValue path key check text) :=
    quiet_getD (fun text => quiet_value _ check text) text
  simp only [ruleValues, quiet_append, hvalue, and_self]

theorem quiet_rulePart {table : Table} (distinct : (Ordered.names table).Nodup) {α : Type}
    {encode : α → Node} {read : Node → Decode.Result α} {key : String} {valid : List String}
    {o : Option α} (hfind : (Ordered.find? key table).join = o.map encode)
    (h : ∀ x, IsKept encode read (Finding.clause key valid) x) (path : String) :
    Quiet (rulePart path key valid table.written) := by
  refine quiet_field_written distinct fun node hnode place => ?_
  rw [hfind] at hnode
  obtain ⟨x, -, rfl⟩ := Option.map_eq_some_iff.mp hnode
  exact (h x).quiet place

theorem quiet_richRule (rule : RichRule) (path : String) :
    Quiet (Finding.richRule path (.map (Table.richRule rule).written)) := by
  have d := (describes_richRule .plain rule).distinct_names
  have hscalars : ∀ key ∈ ruleScalars, IsText (Ordered.find? key (Table.richRule rule)).join := by
    simp only [ruleScalars, List.forall_mem_cons]
    exact ⟨isText_map _, isText_map _, isText_map _, isText_map _, isText_map _, isText_map _,
      isText_map _, isText_map _, isText_map _, isText_map _, isText_map _, List.forall_mem_nil _⟩
  have hflags : ∀ key ∈ ruleFlags, IsFlag (Ordered.find? key (Table.richRule rule)).join := by
    simp only [ruleFlags, List.forall_mem_cons]
    exact ⟨isFlag_switch _, isFlag_switch _, isFlag_switch _, isFlag_switch _, List.forall_mem_nil _⟩
  have heffect (b : Bool) : Quiet (if b then [] else [⟨path, .noEffect⟩]) := by
    cases b <;> simp [Issue.isWarning, quiet_nil]
  simp only [Finding.richRule, quiet_append, quiet_keys, true_and]
  exact ⟨⟨⟨⟨⟨⟨⟨quiet_loop d (isText_map _), quiet_scalars d hscalars⟩,
    quiet_flatMap.mpr fun key hkey => quiet_flag d (hflags key hkey)⟩,
    quiet_rulePart d rfl (isKept_richLog .plain) path⟩,
    quiet_rulePart d rfl (isKept_richForwardPort .plain) path⟩,
    quiet_rulePart d rfl (isKept_richSourcePort .plain) path⟩,
    heffect _⟩, quiet_getD (quiet_ruleValues path) _⟩

theorem isKept_richRule (rule : RichRule) :
    IsKept Encode.richRule (shaped "Repr" richRuleItem?) Finding.richRule rule := by
  have h := describes_richRule .loose rule
  refine h.isKept_shaped (richRule_eq rule) ?_ (quiet_richRule rule)
  exact congrArg Except.toOption (h.record_eq .loose "RichRule")

/-! ## Zones -/

def Table.zone (zone : Zone) : Table :=
  [("target", zone.target.map .str), ("interfaces", listValue Encode.valueItem zone.interfaces),
    ("sources", listValue Encode.valueItem zone.sources),
    ("services", listValue Encode.valueItem zone.services),
    ("ports", listValue Encode.portItem zone.ports),
    ("protocols", listValue Encode.valueItem zone.protocols),
    ("source_ports", listValue Encode.portItem zone.sourcePorts),
    ("rich_rules", listValue Encode.richRule zone.richRules), ("forward", zone.forward.map .bool),
    ("masquerade", zone.masquerade.map .bool),
    ("forward_ports", listValue Encode.forwardPort zone.forwardPorts),
    ("icmp_blocks", listValue Encode.valueItem zone.icmpBlocks),
    ("icmp_block_inversion", zone.icmpBlockInversion.map .bool)]

theorem zone_eq (zone : Zone) : Encode.zone zone = .map (Table.zone zone).written := by
  simp only [Encode.zone, optional_eq, list_eq, toggle_eq, ← written_append, List.cons_append,
    List.nil_append, Table.zone]

theorem describes_zone (zone : Zone) :
    Describes Keys.zone setZone {} (Table.zone zone) zone where
  names := rfl
  distinct := by decide
  isJson := by
    have hvalue (items : List ValueItem) : IsJsonValue (listValue Encode.valueItem items) :=
      isJsonValue_list fun item _ => (isKept_valueItem (fun _ => .ok ()) item).isJson
    have hport (items : List PortItem) : IsJsonValue (listValue Encode.portItem items) :=
      isJsonValue_list fun item _ => (isKept_portItem item).isJson
    have hforward := isJsonValue_list fun item (_ : item ∈ zone.forwardPorts) =>
      (isKept_forwardPort item).isJson
    have hrule := isJsonValue_list fun rule (_ : rule ∈ zone.richRules) => (isKept_richRule rule).isJson
    simp [Table.zone, hvalue, hport, hforward, hrule]
  fills :=
    have hvalue (items : List ValueItem) : ∀ item ∈ items,
        shaped "Repr" valueItem? (Encode.valueItem item) = .ok item :=
      fun item _ => (isKept_valueItem (fun _ => .ok ()) item).reads
    have hport (items : List PortItem) : ∀ item ∈ items,
        shaped "Repr" portItem? (Encode.portItem item) = .ok item :=
      fun item _ => (isKept_portItem item).reads
    .optional (fun z x => { z with target := x }) (fun _ => rfl) rfl (fun _ _ => rfl) <|
    .list (fun z xs => { z with interfaces := xs }) (fun _ => rfl) rfl (hvalue _) <|
    .list (fun z xs => { z with sources := xs }) (fun _ => rfl) rfl (hvalue _) <|
    .list (fun z xs => { z with services := xs }) (fun _ => rfl) rfl (hvalue _) <|
    .list (fun z xs => { z with ports := xs }) (fun _ => rfl) rfl (hport _) <|
    .list (fun z xs => { z with protocols := xs }) (fun _ => rfl) rfl (hvalue _) <|
    .list (fun z xs => { z with sourcePorts := xs }) (fun _ => rfl) rfl (hport _) <|
    .list (fun z xs => { z with richRules := xs }) (fun _ => rfl) rfl
      (fun rule _ => (isKept_richRule rule).reads) <|
    .optional (fun z x => { z with forward := x }) (fun _ => rfl) rfl (fun _ _ => rfl) <|
    .optional (fun z x => { z with masquerade := x }) (fun _ => rfl) rfl (fun _ _ => rfl) <|
    .list (fun z xs => { z with forwardPorts := xs }) (fun _ => rfl) rfl
      (fun item _ => (isKept_forwardPort item).reads) <|
    .list (fun z xs => { z with icmpBlocks := xs }) (fun _ => rfl) rfl (hvalue _) <|
    .optional (fun z x => { z with icmpBlockInversion := x }) (fun _ => rfl) rfl (fun _ _ => rfl) <|
    .nil _

theorem isKept_zone (zone : Zone) :
    IsKept Encode.zone Decode.zone (Finding.mapping "zone" Finding.zone) zone := by
  have h := describes_zone zone
  have d := h.distinct_names
  refine h.isKept (zone_eq zone) .plain "Zone" fun path => ?_
  refine (quiet_append _ _).mpr ⟨quiet_keys _ _ _ _, quiet_flatMap.mpr fun f _ => ?_⟩
  cases f with
  | target => exact quiet_checked d (isText_map _)
  | forward | masquerade | icmpBlockInversion => exact quiet_flag d (isFlag_map _)
  | interfaces | sources | services | protocols | icmpBlocks =>
    exact quiet_list d rfl fun item _ => (isKept_valueItem _ item).quiet
  | ports | sourcePorts => exact quiet_list d rfl fun item _ => (isKept_portItem item).quiet
  | forwardPorts => exact quiet_list d rfl fun item _ => (isKept_forwardPort item).quiet
  | richRules => exact quiet_list d rfl fun rule _ => (isKept_richRule rule).quiet

end ZoneScript
