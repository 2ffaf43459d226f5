import ZoneScript.Config.Decode

/-!
# Shapes of documents

What a document may hold, record by record: which keys a mapping has and what stands under them. The
shape of a value says which of its entries no catalogue knows, and what is left without them.
-/

namespace ZoneScript

open Node Decode

/-! ## Shapes -/

/-- What may stand at a place of a document. -/
inductive Shape where
  /-- A value of which no entries are looked up. -/
  | leaf
  | list (shape : Shape)
  /-- A mapping whose keys are names. -/
  | names (shape : Shape)
  /-- A mapping with keys of a catalogue. -/
  | record (keys : List String) (inner : String → Shape)
  /-- An item that may be written in several ways. -/
  | item (shape : Shape)

/-- An entry with a key that is not in the catalogue. -/
structure UnknownEntry where
  style : Style
  keys : List String
  key : Node
  value : Node

/-- Whether the reader passes over the entry: its key is a text or, in an item, a number behind the last
position. A tag anywhere in an item is not passed over. -/
def UnknownEntry.isIgnored (entry : UnknownEntry) : Bool :=
  match entry.style, entry.key with
  | .plain, .str _ => true
  | .loose, .str _ => !hasTag entry.value
  | .loose, .int n => decide ((entry.keys.length : Int) ≤ n) && !hasTag entry.value
  | _, _ => false

namespace Shape

/-- A value without the entries that no catalogue knows. -/
def prune : Shape → Node → Node
  | .list shape, .seq nodes => .seq (nodes.map fun node => shape.prune node)
  | .names shape, .map entries => .map (entries.map fun (key, node) => (key, shape.prune node))
  | .record keys inner, .map entries =>
    .map ((entries.filter fun (key, _) => keys.contains key.keyName).map fun (key, node) =>
      match key with
      | .str name => (key, (inner name).prune node)
      | _ => (key, node))
  | .item shape, node => shape.prune node
  | _, node => node

/-- The entries of a value that no catalogue knows. -/
def unknown : Shape → Style → Node → List UnknownEntry
  | .list shape, style, .seq nodes => nodes.flatMap fun node => shape.unknown style node
  | .names shape, style, .map entries => entries.flatMap fun (_, node) => shape.unknown style node
  | .record keys inner, style, .map entries => entries.flatMap fun (key, node) =>
    if keys.contains key.keyName then
      match key with
      | .str name => (inner name).unknown style node
      | _ => []
    else [⟨style, keys, key, node⟩]
  | .item shape, _, node => shape.unknown .loose node
  | _, _, _ => []

/-- In a mapping in which entries are looked up, no key stands twice. -/
def HasDistinctKeys : Shape → Node → Prop
  | .list shape, .seq nodes => ∀ node ∈ nodes, shape.HasDistinctKeys node
  | .names shape, .map entries => ∀ entry ∈ entries, shape.HasDistinctKeys entry.2
  | .record _ inner, .map entries =>
    (entries.map Prod.fst).Nodup ∧
      ∀ name node, (.str name, node) ∈ entries → (inner name).HasDistinctKeys node
  | .item shape, node => shape.HasDistinctKeys node
  | _, _ => True

/-! ## Records -/

/-- The shape under a key. -/
def under (inner : String → Shape) : Node → Shape
  | .str name => inner name
  | _ => .leaf

/-- The entries that the catalogue knows, each without its own unknown entries. -/
def pruneEntries (keys : List String) (inner : String → Shape) (entries : Entries) : Entries :=
  (entries.filter fun (key, _) => keys.contains key.keyName).map fun (key, node) =>
    (key, (under inner key).prune node)

theorem prune_record (keys : List String) (inner : String → Shape) (entries : Entries) :
    (record keys inner).prune (.map entries) = .map (pruneEntries keys inner entries) := by
  rw [prune, pruneEntries]
  refine congrArg Node.map (congrArg (List.map · _) (funext fun entry => ?_))
  obtain ⟨key, node⟩ := entry
  cases key <;> rfl

theorem unknown_record (keys : List String) (inner : String → Shape) (style : Style)
    (entries : Entries) :
    (record keys inner).unknown style (.map entries) = entries.flatMap fun (key, node) =>
      if keys.contains key.keyName then (under inner key).unknown style node
      else [⟨style, keys, key, node⟩] := by
  rw [unknown]
  refine congrArg (List.flatMap · entries) (funext fun entry => ?_)
  obtain ⟨key, node⟩ := entry
  cases key <;> rfl

/-! ## The shape of a document -/

/-- A record without records in it. -/
def flat (keys : List String) : Shape :=
  .record keys fun _ => .leaf

/-- What stands under a key of a rich rule. -/
def ruleClause : String → Shape
  | "log" => flat Keys.richLog
  | "forward_port" => flat Keys.richForwardPort
  | "source_port" => flat Keys.richSourcePort
  | _ => .leaf

def richRule : Shape :=
  .record Keys.richRule ruleClause

def zoneField (f : ZoneField) : Shape :=
  match f.kind with
  | .target | .toggle => .leaf
  | .values => .list (.item (flat Keys.valueItem))
  | .ports => .list (.item (flat Keys.port))
  | .forwardPorts => .list (.item (flat Keys.forwardPort))
  | .richRules => .list (.item richRule)

def zone : Shape :=
  .record Keys.zone fun key => ((ZoneField.ofKey? key).map zoneField).getD .leaf

/-- What stands under a key of a rule group. -/
def groupMembers : String → Shape
  | "rules" => .list (flat Keys.groupRule)
  | "passthroughs" => .list (.item (flat Keys.groupPassthrough))
  | _ => .leaf

def ruleGroup : Shape :=
  .record Keys.ruleGroup groupMembers

/-- What stands under a key of the direct block. -/
def directList : String → Shape
  | "chains" => .list (flat Keys.directChain)
  | "rules" => .list (flat Keys.directRule)
  | "passthroughs" => .list (flat Keys.passthrough)
  | "rule_groups" => .list ruleGroup
  | _ => .leaf

def direct : Shape :=
  .record Keys.direct directList

/-- What stands under a key of a document. -/
def topLevel : String → Shape
  | "zones" => .names zone
  | "direct" => direct
  | _ => .leaf

/-- The shape of a whole document. -/
def document : Shape :=
  .record Keys.topLevel topLevel

/-! ## Kinds of values -/

theorem prune_seq (shape : Shape) (nodes : List Node) :
    ∃ rest, shape.prune (.seq nodes) = .seq rest := by
  induction shape with
  | item shape ih => exact ih
  | leaf | list | names | record => exact ⟨_, rfl⟩

theorem prune_map (shape : Shape) (entries : Entries) :
    ∃ rest, shape.prune (.map entries) = .map rest := by
  induction shape with
  | item shape ih => exact ih
  | record keys inner => exact ⟨_, prune_record keys inner entries⟩
  | leaf | list | names => exact ⟨_, rfl⟩

theorem prune_eq_self {node : Node} (hseq : ∀ nodes, node ≠ .seq nodes)
    (hmap : ∀ entries, node ≠ .map entries) (shape : Shape) : shape.prune node = node := by
  induction shape with
  | item shape ih => exact ih
  | leaf | list | names | record =>
    cases node with
    | seq nodes => exact absurd rfl (hseq nodes)
    | map entries => exact absurd rfl (hmap entries)
    | null | bool | int | float | str | tagged => rfl

theorem unknown_prune (shape : Shape) (style : Style) (node : Node) :
    shape.unknown style (shape.prune node) = [] := by
  induction shape generalizing style node with
  | leaf => rfl
  | item shape ih => exact ih .loose node
  | list shape ih =>
    cases node with
    | seq nodes =>
      refine List.flatMap_eq_nil_iff.mpr fun node hnode => ?_
      obtain ⟨node, -, rfl⟩ := List.mem_map.mp hnode
      exact ih style node
    | null | bool | int | float | str | map | tagged => rfl
  | names shape ih =>
    cases node with
    | map entries =>
      refine List.flatMap_eq_nil_iff.mpr fun entry hentry => ?_
      obtain ⟨entry, -, rfl⟩ := List.mem_map.mp hentry
      exact ih style entry.2
    | null | bool | int | float | str | seq | tagged => rfl
  | record keys inner ih =>
    cases node with
    | map entries =>
      rw [prune_record, unknown_record]
      refine List.flatMap_eq_nil_iff.mpr fun entry hentry => ?_
      obtain ⟨⟨key, node⟩, hmem, rfl⟩ := List.mem_map.mp hentry
      have hkey := (List.mem_filter.mp hmem).2
      simp only at hkey ⊢
      rw [if_pos hkey]
      cases key with
      | str name => exact ih name style node
      | null | bool | int | float | seq | map | tagged => rfl
    | null | bool | int | float | str | seq | tagged => rfl

/-! ## Entries that are passed over -/

/-- The reader passes over each unknown entry. -/
def Ignores (shape : Shape) (style : Style) (node : Node) : Prop :=
  ∀ entry ∈ shape.unknown style node, entry.isIgnored = true

section

variable {shape : Shape} {style : Style} {keys : List String} {inner : String → Shape}

theorem ignores_list {nodes : List Node} :
    (Shape.list shape).Ignores style (.seq nodes) ↔ ∀ node ∈ nodes, shape.Ignores style node := by
  simp only [Ignores, unknown, List.mem_flatMap]
  exact ⟨fun h node hnode entry he => h entry ⟨node, hnode, he⟩,
    fun h entry ⟨node, hnode, he⟩ => h node hnode entry he⟩

theorem ignores_names {entries : Entries} :
    (Shape.names shape).Ignores style (.map entries) ↔
      ∀ entry ∈ entries, shape.Ignores style entry.2 := by
  simp only [Ignores, unknown, List.mem_flatMap]
  exact ⟨fun h entry hentry u hu => h u ⟨entry, hentry, hu⟩,
    fun h u ⟨entry, hentry, hu⟩ => h entry hentry u hu⟩

theorem ignores_record {entries : Entries} :
    (Shape.record keys inner).Ignores style (.map entries) ↔ ∀ entry ∈ entries,
      if entry.1.keyName ∈ keys then (under inner entry.1).Ignores style entry.2
      else (UnknownEntry.mk style keys entry.1 entry.2).isIgnored = true := by
  simp only [Ignores, unknown_record, List.mem_flatMap]
  constructor
  · intro h entry hentry
    split
    · rename_i hmem
      exact fun u hu => h u ⟨entry, hentry, by simpa [hmem] using hu⟩
    · rename_i hmem
      exact h _ ⟨entry, hentry, by simp [hmem]⟩
  · rintro h u ⟨entry, hentry, hu⟩
    have hkey := h entry hentry
    by_cases hmem : entry.1.keyName ∈ keys
    · simp only [hmem, if_true] at hkey
      exact hkey u (by simpa [hmem] using hu)
    · simp only [hmem, if_false] at hkey
      obtain rfl : u = _ := by simpa [hmem] using hu
      exact hkey

end

/-! ## Readers that pass over unknown entries -/

/-- The reader makes the same of a value with and without the entries that it passes over. -/
def Respects {β : Type} (shape : Shape) (style : Style) (read : Node → β) : Prop :=
  ∀ node, shape.Ignores style node → read (shape.prune node) = read node

section

variable {α β : Type} {shape : Shape} {style : Style} {keys : List String} {inner : String → Shape}

theorem respects_leaf (style : Style) (read : Node → β) : Respects .leaf style read :=
  fun _ _ => rfl

theorem Respects.comp {read : Node → α} (h : Respects shape style read) (f : α → β) :
    Respects shape style fun node => f (read node) :=
  fun node hnode => congrArg f (h node hnode)

theorem Respects.map {read : Node → Decode.Result α} (h : Respects shape style read) (f : α → β) :
    Respects shape style fun node => (read node).map f :=
  h.comp (Except.map f)

theorem Respects.optional {read : Node → Decode.Result α} (h : Respects shape style read) :
    Respects shape style (Decode.optional read) := by
  intro node hnode
  cases node with
  | seq nodes =>
    have hread := h _ hnode
    obtain ⟨rest, hrest⟩ := prune_seq shape nodes
    rw [hrest] at hread ⊢
    exact congrArg (Except.map some) hread
  | map entries =>
    have hread := h _ hnode
    obtain ⟨rest, hrest⟩ := prune_map shape entries
    rw [hrest] at hread ⊢
    exact congrArg (Except.map some) hread
  | null | bool | int | float | str | tagged => rw [prune_eq_self (by simp) (by simp)]

theorem Respects.list {read : Node → Decode.Result α} (h : Respects shape style read) :
    Respects (.list shape) style (Decode.list read) := by
  intro node hnode
  cases node with
  | seq nodes =>
    rw [ignores_list] at hnode
    show each read (nodes.map fun node => shape.prune node) = each read nodes
    induction nodes with
    | nil => rfl
    | cons node nodes ih =>
      obtain ⟨hhead, htail⟩ := List.forall_mem_cons.mp hnode
      rw [List.map_cons, each, each, h node hhead, ih htail]
  | null | bool | int | float | str | map | tagged => rfl

theorem Respects.namedMap {read : Node → Decode.Result α} (h : Respects shape style read) :
    Respects (.names shape) style (Decode.namedMap read) := by
  intro node hnode
  cases node with
  | map entries =>
    rw [ignores_names] at hnode
    show named read (entries.map fun (key, node) => (key, shape.prune node)) [] = named read entries []
    generalize ([] : List (String × α)) = done
    induction entries generalizing done with
    | nil => rfl
    | cons entry entries ih =>
      obtain ⟨hhead, htail⟩ := List.forall_mem_cons.mp hnode
      obtain ⟨key, node⟩ := entry
      rw [List.map_cons, named, named, h node hhead]
      simp only [ih htail]
  | null | bool | int | float | str | seq | tagged => rfl

/-! ## Records -/

theorem fieldOf_of_isIgnored {key value : Node} (hkey : key.keyName ∉ keys)
    (h : (UnknownEntry.mk style keys key value).isIgnored = true) :
    fieldOf style keys key = .ok none := by
  cases key with
  | str name =>
    have hname : name ∉ keys := hkey
    cases style <;> simp [fieldOf, untag, hname]
  | int n =>
    cases style with
    | plain => cases h
    | loose =>
      simp only [UnknownEntry.isIgnored, Bool.and_eq_true, decide_eq_true_eq] at h
      have hn : 0 ≤ n := by omega
      have hlength : keys.length ≤ n.toNat := by omega
      have hnone : keys[n.toNat]? = none := List.getElem?_eq_none hlength
      simp only [fieldOf, untag, hn, if_true, hnone]
  | null | bool | float | seq | map | tagged => cases style <;> cases h

theorem pruneEntries_cons_of_mem {key : Node} (h : key.keyName ∈ keys) (node : Node)
    (entries : Entries) : pruneEntries keys inner ((key, node) :: entries) =
      (key, (under inner key).prune node) :: pruneEntries keys inner entries := by
  simp [pruneEntries, h]

theorem pruneEntries_cons_of_not_mem {key : Node} (h : key.keyName ∉ keys) (node : Node)
    (entries : Entries) :
    pruneEntries keys inner ((key, node) :: entries) = pruneEntries keys inner entries := by
  simp [pruneEntries, h]

theorem tags_of_isIgnored {key value : Node}
    (h : (UnknownEntry.mk .loose keys key value).isIgnored = true) :
    hasTag key = false ∧ hasTag value = false := by
  cases key <;> simp_all [UnknownEntry.isIgnored, hasTag]

theorem fields_pruneEntries {set : String → Node → α → Decode.Result α} {entries : Entries}
    (hset : ∀ name ∈ keys, ∀ record, Respects (inner name) style fun node => set name node record)
    (h : (Shape.record keys inner).Ignores style (.map entries)) (seen : List String) (record : α) :
    fields style keys set seen (pruneEntries keys inner entries) record =
      fields style keys set seen entries record := by
  rw [ignores_record] at h
  induction entries generalizing seen record with
  | nil => rfl
  | cons entry entries ih =>
    obtain ⟨hentry, htail⟩ := List.forall_mem_cons.mp h
    obtain ⟨key, node⟩ := entry
    by_cases hmem : key.keyName ∈ keys
    · rw [if_pos hmem] at hentry
      rw [pruneEntries_cons_of_mem hmem, fields, fields]
      cases hfield : fieldOf style keys key with
      | error e => rfl
      | ok field =>
        cases field with
        | none => exact ih htail seen record
        | some name =>
          have hvalue : set name ((under inner key).prune node) record = set name node record := by
            cases key with
            | str text =>
              have hname : text = name := by
                have hfound : fieldOf style keys (.str text) = .ok (some text) := by
                  have htext : text ∈ keys := hmem
                  cases style <;> simp [fieldOf, untag, htext]
                rw [hfound] at hfield
                simpa using hfield
              subst hname
              exact hset text hmem record node hentry
            | null | bool | int | float | seq | map | tagged => rfl
          have hrest := fun record => ih htail (name :: seen) record
          simp only [hvalue, funext hrest]
    · rw [if_neg hmem] at hentry
      rw [pruneEntries_cons_of_not_mem hmem, ih htail, fields, fieldOf_of_isIgnored hmem hentry]

theorem respects_record {set : String → Node → α → Decode.Result α}
    (hset : ∀ name ∈ keys, ∀ record, Respects (inner name) style fun node => set name node record)
    (name : String) (empty : α) :
    Respects (.record keys inner) style (Decode.record style name keys set empty) := by
  intro node hnode
  cases node with
  | map entries =>
    rw [prune_record]
    have hfields := fields_pruneEntries hset hnode [] empty
    cases style <;> exact hfields
  | null | bool | int | float | str | seq | tagged => rfl

theorem respects_flat (style : Style) (name : String) (keys : List String)
    (set : String → Node → α → Decode.Result α) (empty : α) :
    Respects (flat keys) style (Decode.record style name keys set empty) :=
  respects_record (fun _ _ _ => respects_leaf style _) name empty

/-! ## Items -/

theorem hasTag_prune {node : Node} (h : shape.Ignores .loose node) :
    hasTag (shape.prune node) = hasTag node := by
  induction shape generalizing node with
  | leaf => rfl
  | item shape ih => exact ih h
  | list shape ih =>
    cases node with
    | seq nodes =>
      rw [ignores_list] at h
      show anyTag (nodes.map fun node => shape.prune node) = anyTag nodes
      induction nodes with
      | nil => rfl
      | cons node nodes ihNodes =>
        obtain ⟨hhead, htail⟩ := List.forall_mem_cons.mp h
        rw [List.map_cons, anyTag, anyTag, ih hhead, ihNodes htail]
    | null | bool | int | float | str | map | tagged => rfl
  | names shape ih =>
    cases node with
    | map entries =>
      rw [ignores_names] at h
      show anyEntryTag (entries.map fun (key, node) => (key, shape.prune node)) = anyEntryTag entries
      induction entries with
      | nil => rfl
      | cons entry entries ihEntries =>
        obtain ⟨hhead, htail⟩ := List.forall_mem_cons.mp h
        obtain ⟨key, node⟩ := entry
        rw [List.map_cons, anyEntryTag, anyEntryTag, ih hhead, ihEntries htail]
    | null | bool | int | float | str | seq | tagged => rfl
  | record keys inner ih =>
    cases node with
    | map entries =>
      rw [ignores_record] at h
      rw [prune_record]
      show anyEntryTag (pruneEntries keys inner entries) = anyEntryTag entries
      induction entries with
      | nil => rfl
      | cons entry entries ihEntries =>
        obtain ⟨hentry, htail⟩ := List.forall_mem_cons.mp h
        obtain ⟨key, node⟩ := entry
        by_cases hmem : key.keyName ∈ keys
        · have hvalue : hasTag ((under inner key).prune node) = hasTag node := by
            rw [if_pos hmem] at hentry
            cases key with
            | str name => exact ih name hentry
            | null | bool | int | float | seq | map | tagged => rfl
          rw [pruneEntries_cons_of_mem hmem, anyEntryTag, anyEntryTag, hvalue, ihEntries htail]
        · rw [if_neg hmem] at hentry
          have hignored := tags_of_isIgnored hentry
          rw [pruneEntries_cons_of_not_mem hmem, anyEntryTag, hignored.1, hignored.2, ihEntries htail]
          rfl
    | null | bool | int | float | str | seq | tagged => rfl

theorem Respects.shaped {shapes : Node → Option α} (h : Respects shape .loose shapes) (name : String) :
    Respects (.item shape) style (Decode.shaped name shapes) := by
  intro node hnode
  have hshapes : shapes (shape.prune node) = shapes node := h node hnode
  rw [prune, Decode.shaped, Decode.shaped, hasTag_prune hnode, hshapes]

theorem respects_scalarText? : Respects (.record keys inner) style Decode.scalarText? := by
  intro node hnode
  cases node with
  | map entries => rw [prune_record]; rfl
  | null | bool | int | float | str | seq | tagged => rfl

theorem respects_itemRecord {set : String → Node → α → Decode.Result α}
    (hset : ∀ name ∈ keys, ∀ record, Respects (inner name) .loose fun node => set name node record)
    (empty : α) : Respects (.record keys inner) .loose (itemRecord keys set empty) := by
  intro node hnode
  cases node with
  | map entries =>
    rw [prune_record]
    exact congrArg Except.toOption (fields_pruneEntries hset hnode [] empty)
  | null | bool | int | float | str | seq | tagged => rfl

end

end Shape

end ZoneScript
