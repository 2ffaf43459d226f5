import ZoneScript.Config.Encode
import ZoneScript.Proofs.Validation

/-!
# Records as they are written

A record is written as a table of its fields, of which the absent ones are left out. Read field by
field, the table fills the record again: a field that is left out has its default by then.
-/

namespace ZoneScript

open Node

/-! ## Tables -/

/-- The fields of a record, by key, with the values of those that are present. -/
abbrev Table := List (String × Option Node)

/-- The entries of the fields that are present. -/
def Table.written (table : Table) : Node.Entries :=
  ofFields (table.filterMap fun (key, value) => value.map (key, ·))

namespace Table

@[simp]
theorem written_nil : written [] = [] := rfl

@[simp]
theorem written_cons_none (key : String) (table : Table) :
    written ((key, none) :: table) = written table := rfl

@[simp]
theorem written_cons_some (key : String) (node : Node) (table : Table) :
    written ((key, some node) :: table) = (.str key, node) :: written table := rfl

theorem written_append (table more : Table) :
    written (table ++ more) = written table ++ written more := by
  simp [written, ofFields]

theorem names_filterMap_sublist (table : Table) :
    (Ordered.names (table.filterMap fun (key, value) => value.map (key, ·))).Sublist
      (Ordered.names table) := by
  induction table with
  | nil => exact List.Sublist.slnil
  | cons row table ih =>
    obtain ⟨key, _ | node⟩ := row
    · exact ih.cons _
    · exact ih.cons_cons _

/-- A value that is absent or a JSON tree. -/
def IsJsonValue (value : Option Node) : Prop :=
  ∀ node ∈ value, node.IsJson

/-- A value that is absent or a text. -/
def IsText (value : Option Node) : Prop :=
  ∀ node ∈ value, ∃ s, node = .str s

/-- A value that is absent or a boolean. -/
def IsFlag (value : Option Node) : Prop :=
  ∀ node ∈ value, ∃ b, node = .bool b

theorem isJson_written {table : Table} (distinct : (Ordered.names table).Nodup)
    (each : ∀ row ∈ table, IsJsonValue row.2) : (Node.map table.written).IsJson := by
  refine .map (distinct.sublist (names_filterMap_sublist table)) fun field hfield => ?_
  obtain ⟨⟨key, value⟩, hrow, hvalue⟩ := List.mem_filterMap.mp hfield
  obtain ⟨node, hnode, rfl⟩ := Option.map_eq_some_iff.mp hvalue
  exact each _ hrow node hnode

theorem find?_written {table : Table} (distinct : (Ordered.names table).Nodup) (key : String) :
    Node.find? key table.written = (Ordered.find? key table).join := by
  induction table with
  | nil => rfl
  | cons row table ih =>
    obtain ⟨k, value⟩ := row
    obtain ⟨hk, distinct⟩ := List.nodup_cons.mp distinct
    have ih := ih distinct
    by_cases h : k = key
    · subst h
      rw [Ordered.find?_eq_none.mpr hk] at ih
      cases value with
      | none => simpa [Ordered.find?] using ih
      | some node => simp [Ordered.find?, Node.find?]
    · cases value with
      | none => simpa [Ordered.find?, h] using ih
      | some node => simpa [Ordered.find?, Node.find?, h] using ih

end Table

/-! ## Fields as they are written -/

namespace Encode

open Table

/-- A list that is left out when it is empty. -/
def listValue {α : Type} (node : α → Node) (xs : List α) : Option Node :=
  if xs.isEmpty then none else some (.seq (xs.map node))

/-- A switch that is left out when it is off. -/
def switchValue (b : Bool) : Option Node :=
  if b then some (.bool true) else none

/-- A mapping from names that is left out when it is empty. -/
def namedValue {α : Type} (node : α → Node) (es : List (String × α)) : Option Node :=
  if es.isEmpty then none else some (.map (ofFields (Ordered.mapValues node es)))

theorem entry_eq (key : String) (value : Node) :
    [entry key value] = written [(key, some value)] :=
  rfl

theorem entry_cons (key : String) (value : Node) (table : Table) :
    entry key value :: table.written = written ((key, some value) :: table) :=
  rfl

theorem optional_eq (key : String) (text : Option String) :
    optional key text = written [(key, text.map .str)] := by
  cases text <;> rfl

theorem switch_eq (key : String) (b : Bool) :
    switch key b = written [(key, switchValue b)] := by
  cases b <;> rfl

theorem toggle_eq (key : String) (b : Option Bool) :
    toggle key b = written [(key, b.map .bool)] := by
  cases b <;> rfl

section

variable {α : Type} (key : String) (node : α → Node)

theorem part_eq (x : Option α) : part key node x = written [(key, x.map node)] := by
  cases x <;> rfl

theorem list_eq (xs : List α) : list key node xs = written [(key, listValue node xs)] := by
  cases xs <;> rfl

theorem namedMap_eq (es : List (String × α)) :
    namedMap key node es = written [(key, namedValue node es)] := by
  cases es with
  | nil => rfl
  | cons e es => simp [namedMap, namedValue, ofFields, Ordered.mapValues, entry, Function.comp_def]

end

end Encode

/-! ## Kinds of values -/

namespace Table

open Encode

@[simp]
theorem isJsonValue_some {node : Node} : IsJsonValue (some node) ↔ node.IsJson := by
  simp [IsJsonValue]

theorem isJsonValue_map {α : Type} {encode : α → Node} (h : ∀ x, (encode x).IsJson) (o : Option α) :
    IsJsonValue (o.map encode) := by
  intro node hnode
  obtain ⟨x, -, rfl⟩ := Option.map_eq_some_iff.mp hnode
  exact h x

@[simp]
theorem isJsonValue_text (o : Option String) : IsJsonValue (o.map .str) :=
  isJsonValue_map .str o

@[simp]
theorem isJsonValue_flag (o : Option Bool) : IsJsonValue (o.map .bool) :=
  isJsonValue_map .bool o

@[simp]
theorem isJsonValue_int (o : Option Int) : IsJsonValue (o.map .int) :=
  isJsonValue_map .int o

@[simp]
theorem isJsonValue_switch (b : Bool) : IsJsonValue (switchValue b) := by
  cases b
  · simp [IsJsonValue, switchValue]
  · exact isJsonValue_some.mpr (.bool true)

theorem isJsonValue_list {α : Type} {encode : α → Node} {xs : List α}
    (h : ∀ x ∈ xs, (encode x).IsJson) : IsJsonValue (listValue encode xs) := by
  intro node hnode
  obtain ⟨-, ⟨⟩⟩ := Option.ite_none_left_eq_some.mp hnode
  exact .seq (List.forall_mem_map.mpr h)

theorem isJsonValue_named {α : Type} {encode : α → Node} {es : List (String × α)}
    (distinct : (Ordered.names es).Nodup) (h : ∀ e ∈ es, (encode e.2).IsJson) :
    IsJsonValue (namedValue encode es) := by
  intro node hnode
  obtain ⟨-, ⟨⟩⟩ := Option.ite_none_left_eq_some.mp hnode
  exact .map (by rwa [Ordered.names_mapValues]) (List.forall_mem_map.mpr h)

theorem isText_some (s : String) : IsText (some (.str s)) := by
  rintro _ ⟨⟩
  exact ⟨s, rfl⟩

theorem isText_map (o : Option String) : IsText (o.map .str) := by
  intro node hnode
  obtain ⟨s, -, rfl⟩ := Option.map_eq_some_iff.mp hnode
  exact ⟨s, rfl⟩

theorem isFlag_map (o : Option Bool) : IsFlag (o.map .bool) := by
  intro node hnode
  obtain ⟨b, -, rfl⟩ := Option.map_eq_some_iff.mp hnode
  exact ⟨b, rfl⟩

theorem isFlag_switch (b : Bool) : IsFlag (switchValue b) := by
  intro node hnode
  obtain ⟨-, ⟨⟩⟩ := Option.ite_none_right_eq_some.mp hnode
  exact ⟨true, rfl⟩

end Table

namespace Decode

open Table Encode

/-! ## Records filled field by field -/

/-- Writing the present fields of a table into a record, one after the other, makes it `full`. -/
inductive Fills {σ : Type} (set : String → Node → σ → Result σ) : Table → σ → σ → Prop
  | nil (record : σ) : Fills set [] record record
  | skip {key : String} {table : Table} {record full : σ} (rest : Fills set table record full) :
      Fills set ((key, none) :: table) record full
  | put {key : String} {node : Node} {table : Table} {record next full : σ}
      (step : set key node record = .ok next) (rest : Fills set table next full) :
      Fills set ((key, some node) :: table) record full

section

variable {σ : Type} {set : String → Node → σ → Result σ} {table : Table} {record full : σ}

theorem fields_written {style : Style} {keys seen : List String} (h : Fills set table record full)
    (known : Ordered.names table ⊆ keys) (distinct : (Ordered.names table).Nodup)
    (unseen : ∀ key ∈ Ordered.names table, key ∉ seen) :
    fields style keys set seen table.written record = .ok full := by
  induction h generalizing seen with
  | nil => rfl
  | skip rest ih =>
    obtain ⟨-, known⟩ := List.cons_subset.mp known
    obtain ⟨-, distinct⟩ := List.nodup_cons.mp distinct
    exact ih known distinct fun key hkey => unseen key (List.mem_cons_of_mem _ hkey)
  | @put key node table record next full step rest ih =>
    obtain ⟨hkey, known⟩ := List.cons_subset.mp known
    obtain ⟨hnew, distinct⟩ := List.nodup_cons.mp distinct
    have hfield : fieldOf style keys (.str key) = .ok (some key) := by
      rw [fieldOf_str, if_pos (List.contains_iff_mem.mpr hkey)]
    have hseen : seen.contains key = false := by
      simpa using unseen key List.mem_cons_self
    rw [written_cons_some, fields, hfield]
    simp only [hseen, step, Except.bind, Bool.false_eq_true, if_false]
    refine ih known distinct fun k hk => ?_
    have hne : k ≠ key := fun heq => hnew (heq ▸ hk)
    simpa [hne] using unseen k (List.mem_cons_of_mem _ hk)

/-! ## One field

`update` writes the field. What is left out of the table is its default. -/

variable {α : Type} {key : String} {read : Node → Result α} {encode : α → Node}

theorem Fills.optional {x : Option α} (update : σ → Option α → σ)
    (hset : ∀ node, set key node record = (Decode.optional read node).map (update record))
    (hdefault : update record none = record)
    (hread : ∀ y ∈ x, Decode.optional read (encode y) = .ok (some y))
    (rest : Fills set table (update record x) full) :
    Fills set ((key, x.map encode) :: table) record full := by
  cases x with
  | none =>
    rw [hdefault] at rest
    exact .skip rest
  | some y =>
    refine .put ?_ rest
    rw [hset, hread y rfl]
    rfl

theorem Fills.switch {b : Bool} (update : σ → Bool → σ)
    (hset : ∀ node, set key node record = (Decode.flag node).map (update record))
    (hdefault : update record false = record)
    (rest : Fills set table (update record b) full) :
    Fills set ((key, switchValue b) :: table) record full := by
  cases b with
  | false =>
    rw [hdefault] at rest
    exact .skip rest
  | true =>
    refine .put ?_ rest
    rw [hset]
    rfl

theorem each_map {xs : List α} (h : ∀ x ∈ xs, read (encode x) = .ok x) :
    each read (xs.map encode) = .ok xs := by
  induction xs with
  | nil => rfl
  | cons x xs ih =>
    obtain ⟨hx, hxs⟩ := List.forall_mem_cons.mp h
    rw [List.map_cons, each, hx, ih hxs]
    rfl

theorem Fills.unlessEmpty {xs : List α} {node : Node} (update : σ → List α → σ)
    (hset : set key node record = .ok (update record xs)) (hdefault : update record [] = record)
    (rest : Fills set table (update record xs) full) :
    Fills set ((key, if xs.isEmpty then none else some node) :: table) record full := by
  cases xs with
  | nil =>
    rw [hdefault] at rest
    exact .skip rest
  | cons x xs => exact .put hset rest

theorem Fills.list {xs : List α} (update : σ → List α → σ)
    (hset : ∀ node, set key node record = (Decode.list read node).map (update record))
    (hdefault : update record [] = record) (hread : ∀ x ∈ xs, read (encode x) = .ok x)
    (rest : Fills set table (update record xs) full) :
    Fills set ((key, listValue encode xs) :: table) record full := by
  refine .unlessEmpty update ?_ hdefault rest
  rw [hset]
  exact congrArg (Except.map (update record)) (each_map hread)

theorem named_ofFields {β : Type} {read : Node → Result β} {f : α → β} {es : List (String × α)}
    (hread : ∀ e ∈ es, read (encode e.2) = .ok (f e.2)) (done : List (String × β)) :
    named read (ofFields (Ordered.mapValues encode es)) done =
      .ok (Ordered.alterEach (fun _ x => f x) done es) := by
  induction es generalizing done with
  | nil => rfl
  | cons e es ih =>
    obtain ⟨name, x⟩ := e
    obtain ⟨hx, hes⟩ := List.forall_mem_cons.mp hread
    show (text (.str name)).bind (fun name => (read (encode x)).bind fun x => _) = _
    rw [hx]
    exact ih hes _

theorem namedMap_ofFields {β : Type} {read : Node → Result β} {f : α → β} {es : List (String × α)}
    (distinct : (Ordered.names es).Nodup) (hread : ∀ e ∈ es, read (encode e.2) = .ok (f e.2)) :
    namedMap read (.map (ofFields (Ordered.mapValues encode es))) =
      .ok (Ordered.mapValues f es) :=
  (named_ofFields hread []).trans
    (congrArg Except.ok (Ordered.alterEach_of_disjoint distinct (by simp) _))

end

/-! ## Tables of records -/

/-- The table of a record with these keys: it is a JSON tree, and it fills the record. -/
structure Describes {σ : Type} (keys : List String) (set : String → Node → σ → Result σ) (empty : σ)
    (table : Table) (record : σ) : Prop where
  names : Ordered.names table = keys
  distinct : keys.Nodup
  isJson : ∀ row ∈ table, IsJsonValue row.2
  fills : Fills set table empty record

namespace Describes

variable {σ : Type} {keys : List String} {set : String → Node → σ → Result σ} {empty record : σ}
  {table : Table}

theorem distinct_names (h : Describes keys set empty table record) : (Ordered.names table).Nodup :=
  h.names ▸ h.distinct

theorem isJson_map (h : Describes keys set empty table record) : (Node.map table.written).IsJson :=
  isJson_written h.distinct_names h.isJson

theorem fields (h : Describes keys set empty table record) (style : Style) :
    Decode.fields style keys set [] table.written empty = .ok record :=
  fields_written h.fills (h.names ▸ List.Subset.refl _) h.distinct_names (by simp)

theorem record_eq (h : Describes keys set empty table record) (style : Style) (name : String) :
    Decode.record style name keys set empty (.map table.written) = .ok record := by
  cases style <;> exact h.fields _

theorem itemRecord_eq (h : Describes keys set empty table record) :
    itemRecord keys set empty (.map table.written) = some record := by
  rw [itemRecord, h.fields]
  rfl

end Describes

theorem shaped_of_isJson {α : Type} {name : String} {shapes : Node → Option α} {node : Node} {x : α}
    (h : node.IsJson) (hx : shapes node = some x) : shaped name shapes node = .ok x := by
  rw [shaped, hasTag_eq_false h, hx]
  rfl

end Decode

end ZoneScript
