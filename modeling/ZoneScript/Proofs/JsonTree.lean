import ZoneScript.Config.Decode
import ZoneScript.Proofs.Ordered

/-!
# Trees as JSON has them

A tree without tags whose mappings have text keys, none of them twice. Such a tree is read without
the ways out that a record has for other trees: positions, numbers for keys, and tags.
-/

namespace ZoneScript

namespace Node

/-- The entries of a mapping with text keys. -/
def ofFields (fields : List (String × Node)) : Entries :=
  fields.map fun (key, value) => (.str key, value)

/-- A tree that a JSON text could hold. -/
inductive IsJson : Node → Prop
  | null : IsJson .null
  | bool (b : Bool) : IsJson (.bool b)
  | int (n : Int) : IsJson (.int n)
  | float (x : Double) : IsJson (.float x)
  | str (s : String) : IsJson (.str s)
  | seq {items : List Node} (each : ∀ item ∈ items, IsJson item) : IsJson (.seq items)
  | map {fields : List (String × Node)} (distinct : (Ordered.names fields).Nodup)
      (each : ∀ field ∈ fields, IsJson field.2) : IsJson (.map (ofFields fields))

/-! ## Mappings -/

theorem find?_ofFields (key : String) (fields : List (String × Node)) :
    find? key (ofFields fields) = Ordered.find? key fields := by
  induction fields with
  | nil => rfl
  | cons field fields ih =>
    by_cases h : field.1 = key
    · simp [ofFields, find?, Ordered.find?, h]
    · simpa [ofFields, find?, Ordered.find?, h] using ih

theorem find?_of_mem {fields : List (String × Node)} (distinct : (Ordered.names fields).Nodup)
    {field : String × Node} (h : field ∈ fields) :
    find? field.1 (ofFields fields) = some field.2 := by
  rw [find?_ofFields]
  exact Ordered.find?_of_mem distinct h

theorem IsJson.fields {entries : Entries} (h : (Node.map entries).IsJson) :
    ∃ fields, entries = ofFields fields ∧ (Ordered.names fields).Nodup ∧
      ∀ field ∈ fields, field.2.IsJson := by
  cases h with
  | map distinct each => exact ⟨_, rfl, distinct, each⟩

theorem IsJson.items {items : List Node} (h : (Node.seq items).IsJson) :
    ∀ item ∈ items, item.IsJson := by
  cases h with
  | seq each => exact each

theorem IsJson.value {entries : Entries} (h : (Node.map entries).IsJson) {key : String}
    {node : Node} (hf : find? key entries = some node) : node.IsJson := by
  obtain ⟨fields, rfl, -, each⟩ := h.fields
  rw [find?_ofFields] at hf
  exact each _ (Ordered.mem_of_find? hf)

end Node

namespace Decode

open Node

theorem anyTag_eq_false {nodes : List Node} (h : ∀ node ∈ nodes, hasTag node = false) :
    anyTag nodes = false := by
  induction nodes with
  | nil => rfl
  | cons node nodes ih =>
    rw [anyTag, h node List.mem_cons_self, ih fun n hn => h n (List.mem_cons_of_mem _ hn)]
    rfl

theorem anyEntryTag_ofFields {fields : List (String × Node)}
    (h : ∀ field ∈ fields, hasTag field.2 = false) : anyEntryTag (ofFields fields) = false := by
  induction fields with
  | nil => rfl
  | cons field fields ih =>
    have htail := ih fun f hf => h f (List.mem_cons_of_mem _ hf)
    rw [ofFields, List.map_cons, anyEntryTag, h field List.mem_cons_self]
    exact htail

theorem hasTag_eq_false {node : Node} (h : node.IsJson) : hasTag node = false := by
  induction h with
  | null | bool | int | float | str => rfl
  | seq _ ih => exact anyTag_eq_false ih
  | map _ _ ih => exact anyEntryTag_ofFields ih

/-! ## Readers that succeed -/

/-- The reader gives a value. -/
def Reads {α : Type} (r : Result α) : Prop :=
  ∃ x, r = .ok x

@[simp]
theorem reads_ok {α : Type} (x : α) : Reads (.ok x : Result α) :=
  ⟨x, rfl⟩

@[simp]
theorem reads_map {α β : Type} {r : Result α} {f : α → β} : Reads (r.map f) ↔ Reads r := by
  cases r with
  | ok x => exact ⟨fun _ => ⟨x, rfl⟩, fun _ => ⟨f x, rfl⟩⟩
  | error e => constructor <;> rintro ⟨_, h⟩ <;> cases h

theorem Reads.bind {α β : Type} {r : Result α} {f : α → Result β} (h : Reads r)
    (hf : ∀ x, Reads (f x)) : Reads (r.bind f) := by
  obtain ⟨x, rfl⟩ := h
  exact hf x

theorem Reads.toOption {α : Type} {r : Result α} (h : Reads r) : r.toOption.isSome := by
  obtain ⟨x, rfl⟩ := h
  rfl

theorem reads_shaped {α : Type} {name : String} {shapes : Node → Option α} {node : Node}
    (h : node.IsJson) (hs : (shapes node).isSome) : Reads (shaped name shapes node) := by
  obtain ⟨x, hx⟩ := Option.isSome_iff_exists.mp hs
  exact ⟨x, by simp [shaped, hasTag_eq_false h, hx]⟩

theorem isSome_scalarText? (node : Node) :
    (scalarText? node).isSome = (Node.scalarText? node).isSome := by
  cases node <;> rfl

theorem reads_scalar {node : Node} (h : node.IsJson) (hs : node.scalarText?.isSome) :
    Reads (scalar node) :=
  reads_shaped h (by rw [isSome_scalarText?, hs])

theorem reads_optional {α : Type} {read : Node → Result α} {node : Node} (h : Reads (read node)) :
    Reads (optional read node) := by
  cases node with
  | null => exact reads_ok _
  | _ => exact reads_map.mpr h

theorem reads_each {α : Type} {read : Node → Result α} {nodes : List Node}
    (h : ∀ node ∈ nodes, Reads (read node)) : Reads (each read nodes) := by
  induction nodes with
  | nil => exact reads_ok _
  | cons node nodes ih =>
    refine (h node List.mem_cons_self).bind fun x => ?_
    exact reads_map.mpr (ih fun n hn => h n (List.mem_cons_of_mem _ hn))

theorem reads_list {α : Type} {read : Node → Result α} {nodes : List Node}
    (h : ∀ node ∈ nodes, Reads (read node)) : Reads (list read (.seq nodes)) :=
  reads_each h

theorem isSome_scalars? {nodes : List Node} (h : ∀ node ∈ nodes, node.scalarText?.isSome) :
    (scalars? (.seq nodes)).isSome := by
  rw [scalars?]
  induction nodes with
  | nil => rfl
  | cons node nodes ih =>
    have hnode := h node List.mem_cons_self
    rw [← isSome_scalarText?] at hnode
    obtain ⟨s, hs⟩ := Option.isSome_iff_exists.mp hnode
    obtain ⟨ss, hss⟩ :=
      Option.isSome_iff_exists.mp (ih fun n hn => h n (List.mem_cons_of_mem _ hn))
    simp [List.mapM_cons, hs, hss]

/-! ## Records -/

theorem fieldOf_str (style : Style) (keys : List String) (key : String) :
    fieldOf style keys (.str key) = .ok (if keys.contains key then some key else none) := by
  cases style <;> rfl

-- `seen` are the keys before, which come up no more.
theorem reads_fields {σ : Type} {style : Style} {keys : List String}
    {set : String → Node → σ → Result σ} {fields : List (String × Node)} {seen : List String}
    (distinct : (Ordered.names fields).Nodup) (unseen : ∀ key ∈ Ordered.names fields, key ∉ seen)
    (h : ∀ field ∈ fields, field.1 ∈ keys → ∀ record, Reads (set field.1 field.2 record))
    (record : σ) : Reads (Decode.fields style keys set seen (ofFields fields) record) := by
  induction fields generalizing seen record with
  | nil => exact reads_ok _
  | cons field fields ih =>
    obtain ⟨key, value⟩ := field
    have distinct' := (List.nodup_cons.mp distinct)
    have htail := fun f hf => h f (List.mem_cons_of_mem (key, value) hf)
    rw [ofFields, List.map_cons, Decode.fields, fieldOf_str]
    by_cases hmem : key ∈ keys
    · have hseen : key ∉ seen := unseen key List.mem_cons_self
      simp only [List.contains_iff_mem, hmem, hseen, if_true, if_false]
      refine (h (key, value) List.mem_cons_self hmem record).bind fun r => ?_
      refine ih distinct'.2 (fun k hk => ?_) htail r
      have hne : k ≠ key := fun heq => distinct'.1 (heq ▸ hk)
      simpa [hne] using unseen k (List.mem_cons_of_mem _ hk)
    · simp only [List.contains_iff_mem, hmem, if_false]
      exact ih distinct'.2 (fun k hk => unseen k (List.mem_cons_of_mem _ hk)) htail record

variable {σ : Type} {keys : List String} {set : String → Node → σ → Result σ} {entries : Entries}

/-- Every field of the record that the mapping has is read. -/
def Sets (keys : List String) (set : String → Node → σ → Result σ) (entries : Entries) : Prop :=
  ∀ key ∈ keys, ∀ node, find? key entries = some node → ∀ record, Reads (set key node record)

theorem sets_nil : Sets [] set entries := by
  simp [Sets]

theorem sets_cons {key : String} : Sets (key :: keys) set entries ↔
    (∀ node, find? key entries = some node → ∀ record, Reads (set key node record)) ∧
      Sets keys set entries :=
  List.forall_mem_cons

theorem Sets.reads (hset : Sets keys set entries) (h : (Node.map entries).IsJson) (style : Style)
    (record : σ) : Reads (Decode.fields style keys set [] entries record) := by
  obtain ⟨fields, rfl, distinct, -⟩ := h.fields
  refine reads_fields distinct (by simp) (fun field hf hkey r => ?_) record
  exact hset field.1 hkey field.2 (find?_of_mem distinct hf) r

theorem Sets.reads_record (hset : Sets keys set entries) (h : (Node.map entries).IsJson)
    (style : Style) (name : String) (empty : σ) :
    Reads (record style name keys set empty (.map entries)) := by
  cases style <;> exact hset.reads h _ empty

theorem Sets.isSome_itemRecord (hset : Sets keys set entries) (h : (Node.map entries).IsJson)
    (empty : σ) : (itemRecord keys set empty (.map entries)).isSome :=
  (hset.reads h .loose empty).toOption

theorem reads_namedMap {α : Type} {read : Node → Result α} (h : (Node.map entries).IsJson)
    (hread : ∀ entry ∈ entries, Reads (read entry.2)) : Reads (namedMap read (.map entries)) := by
  obtain ⟨fields, rfl, -, -⟩ := h.fields
  have go : ∀ done, Reads (named read (ofFields fields) done) := by
    clear h
    induction fields with
    | nil => exact fun done => reads_ok done
    | cons field fields ih =>
      intro done
      refine (reads_ok field.1).bind fun name => ?_
      refine (hread _ List.mem_cons_self).bind fun x => ?_
      exact ih (fun e he => hread e (List.mem_cons_of_mem _ he)) _
  exact go []

end Decode

end ZoneScript
