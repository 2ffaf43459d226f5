import ZoneScript.Proofs.Shapes
import ZoneScript.Proofs.Validation

/-!
# Unknown keys that are reported

What the checker says about unknown keys it says about the entries that the shape of a document calls
unknown, and where there is no error it says it about each of them.
-/

namespace ZoneScript

open Node Decode

/-! ## Findings about unknown keys -/

def Issue.isUnknownKey : Issue → Bool
  | .unknownKey .. => true
  | _ => false

/-- The finding about an unknown entry of a mapping. -/
def UnknownEntry.finding (entry : UnknownEntry) (place what : String) : Finding :=
  ⟨childPath place entry.key.keyName,
    .unknownKey what (Text.suggest entry.key.keyName entry.keys)⟩

/-- One of the findings is about the entry. -/
def UnknownEntry.IsReported (entry : UnknownEntry) (findings : List Finding) : Prop :=
  ∃ place what, entry.finding place what ∈ findings

namespace Finding

open Shape

/-- What the findings say about unknown keys is about these entries. -/
def AreAbout (unknown : List UnknownEntry) (findings : List Finding) : Prop :=
  ∀ f ∈ findings, f.issue.isUnknownKey = true →
    ∃ entry ∈ unknown, ∃ place what, entry.finding place what = f

/-- No finding is about an unknown key. -/
def AllKnown (findings : List Finding) : Prop :=
  ∀ f ∈ findings, f.issue.isUnknownKey = false

@[simp]
theorem allKnown_nil : AllKnown [] := by
  simp [AllKnown]

@[simp]
theorem allKnown_singleton (f : Finding) : AllKnown [f] ↔ f.issue.isUnknownKey = false := by
  simp [AllKnown]

@[simp]
theorem allKnown_append (fs gs : List Finding) : AllKnown (fs ++ gs) ↔ AllKnown fs ∧ AllKnown gs :=
  List.forall_mem_append

theorem allKnown_flatMap {α : Type} {xs : List α} {check : α → List Finding}
    (h : ∀ x ∈ xs, AllKnown (check x)) : AllKnown (xs.flatMap check) := by
  intro f hf
  obtain ⟨x, hx, hf⟩ := List.mem_flatMap.mp hf
  exact h x hx f hf

theorem allKnown_ite {c : Prop} [Decidable c] {fs gs : List Finding} (hf : AllKnown fs)
    (hg : AllKnown gs) : AllKnown (if c then fs else gs) := by
  split
  · exact hf
  · exact hg

section

variable {path key : String} {entries : Entries}

theorem allKnown_field {check : String → Node → List Finding}
    (h : ∀ node, find? key entries = some node → AllKnown (check (childPath path key) node)) :
    AllKnown (field path key entries check) := by
  rw [field]
  split
  · exact h _ ‹_›
  · exact allKnown_nil

@[simp]
theorem allKnown_value (path : String) (check : String → Lexical.Result Unit) (text : String) :
    AllKnown (value path check text) := by
  rw [value]
  split
  · exact allKnown_nil
  · split <;> simp [Issue.isUnknownKey]

theorem allKnown_scalarNode (check : String → Lexical.Result Unit) (path : String) (node : Node) :
    AllKnown (scalarNode check path node) := by
  rw [scalarNode]
  split <;> simp [Issue.isUnknownKey]

@[simp]
theorem allKnown_checked (path key : String) (check : String → Lexical.Result Unit)
    (entries : Entries) : AllKnown (checked path key check entries) :=
  allKnown_field fun node _ => allKnown_scalarNode check _ node

@[simp]
theorem allKnown_scalars (path : String) (keys : List String) (entries : Entries) :
    AllKnown (scalars path keys entries) :=
  allKnown_flatMap fun key _ => allKnown_checked path key _ entries

theorem allKnown_flagNode (path : String) (node : Node) : AllKnown
    (match node.untag with
      | .bool _ => []
      | _ => [⟨path, .notFlag node.kindName⟩]) := by
  split <;> simp [Issue.isUnknownKey]

@[simp]
theorem allKnown_flag (path key : String) (entries : Entries) : AllKnown (flag path key entries) :=
  allKnown_field fun node _ => allKnown_flagNode _ node

@[simp]
theorem allKnown_loop (path : String) (entries : Entries) : AllKnown (loop path entries) := by
  refine allKnown_field fun node _ => ?_
  split <;> simp [Issue.isUnknownKey]

@[simp]
theorem allKnown_priority (path : String) (entries : Entries) : AllKnown (priority path entries) := by
  refine allKnown_field fun node _ => ?_
  split <;> simp [Issue.isUnknownKey]

@[simp]
theorem allKnown_required (path : String) (wanted : List String) (what : String) (entries : Entries) :
    AllKnown (required path wanted what entries) := by
  intro f hf
  obtain ⟨key, -, rfl⟩ := List.mem_map.mp hf
  rfl

theorem allKnown_items {check : String → Node → List Finding} {nodes : List Node}
    (h : ∀ node ∈ nodes, ∀ place, AllKnown (check place node)) (path : String) (index : Nat) :
    AllKnown (items path check index nodes) := by
  induction nodes generalizing index with
  | nil => exact allKnown_nil
  | cons node nodes ih =>
    obtain ⟨hhead, htail⟩ := List.forall_mem_cons.mp h
    exact (allKnown_append _ _).mpr ⟨hhead _, ih htail _⟩

end

/-! ## Shapes and their checks -/

section

variable {unknown : List UnknownEntry} {fs gs : List Finding}

theorem AllKnown.areAbout (h : AllKnown fs) (unknown : List UnknownEntry) : AreAbout unknown fs :=
  fun f hf hkey => absurd (h f hf) (by simp [hkey])

theorem allKnown_of_areAbout_nil (h : AreAbout [] fs) : AllKnown fs := by
  intro f hf
  rw [Bool.eq_false_iff]
  intro hkey
  obtain ⟨entry, hentry, -⟩ := h f hf hkey
  cases hentry

@[simp]
theorem areAbout_append :
    AreAbout unknown (fs ++ gs) ↔ AreAbout unknown fs ∧ AreAbout unknown gs :=
  List.forall_mem_append

theorem areAbout_flatMap {α : Type} {xs : List α} {check : α → List Finding}
    (h : ∀ x ∈ xs, AreAbout unknown (check x)) : AreAbout unknown (xs.flatMap check) := by
  intro f hf
  obtain ⟨x, hx, hf⟩ := List.mem_flatMap.mp hf
  exact h x hx f hf

theorem AreAbout.mono {more : List UnknownEntry} (h : AreAbout unknown fs) (hsub : unknown ⊆ more) :
    AreAbout more fs := by
  intro f hf hkey
  obtain ⟨entry, hentry, hfinding⟩ := h f hf hkey
  exact ⟨entry, hsub hentry, hfinding⟩

theorem Quiet.mono (h : Quiet gs) (hsub : fs ⊆ gs) : Quiet fs :=
  fun f hf => h f (hsub hf)

end

theorem isReported_mono {entry : UnknownEntry} {fs gs : List Finding}
    (h : entry.IsReported fs) (hsub : fs ⊆ gs) : entry.IsReported gs :=
  have ⟨place, what, hmem⟩ := h
  ⟨place, what, hsub hmem⟩

/-- The check says of the unknown entries of a value that they are unknown, and of nothing else. -/
structure Accounts (shape : Shape) (check : String → Node → List Finding) : Prop where
  sound : ∀ path style node, AreAbout (shape.unknown style node) (check path node)
  complete : ∀ path style node, shape.HasDistinctKeys node → Quiet (check path node) →
    ∀ entry ∈ shape.unknown style node, entry.IsReported (check path node)

theorem accounts_leaf {check : String → Node → List Finding}
    (h : ∀ path node, AllKnown (check path node)) : Accounts .leaf check :=
  ⟨fun path _ node => (h path node).areAbout _, fun _ _ _ _ _ _ hentry => nomatch hentry⟩

section

variable {shape : Shape} {check : String → Node → List Finding} {valid : List String}
  {inner : String → Shape} {style : Style} {path key what : String} {entries : Entries} {node : Node}

theorem Accounts.item (h : Accounts shape check) : Accounts (.item shape) check :=
  ⟨fun path _ node => h.sound path .loose node, fun path _ node => h.complete path .loose node⟩

/-! ## Records -/

theorem mem_of_find? (h : find? key entries = some node) : (.str key, node) ∈ entries := by
  induction entries with
  | nil => cases h
  | cons entry entries ih =>
    obtain ⟨other, value⟩ := entry
    cases other with
    | str name =>
      rw [find?] at h
      split at h
      · rename_i hname
        obtain rfl := Option.some.inj h
        rw [eq_of_beq hname]
        exact List.mem_cons_self
      · exact List.mem_cons_of_mem _ (ih h)
    | null | bool | int | float | seq | map | tagged => exact List.mem_cons_of_mem _ (ih h)

theorem find?_of_nodup (hdistinct : (entries.map Prod.fst).Nodup) (h : (.str key, node) ∈ entries) :
    find? key entries = some node := by
  induction entries with
  | nil => cases h
  | cons entry entries ih =>
    obtain ⟨other, value⟩ := entry
    obtain ⟨hhead, htail⟩ := List.nodup_cons.mp hdistinct
    rcases List.mem_cons.mp h with heq | hmem
    · obtain ⟨rfl, rfl⟩ := Prod.mk.inj heq
      simp [find?]
    · have hkey : Node.str key ∈ entries.map Prod.fst := List.mem_map.mpr ⟨_, hmem, rfl⟩
      have hne : other ≠ .str key := fun heq => hhead (heq ▸ hkey)
      rw [← ih htail hmem]
      cases other with
      | str name =>
        have hname : name ≠ key := fun heq => hne (heq ▸ rfl)
        simp [find?, hname]
      | null | bool | int | float | seq | map | tagged => rfl

theorem mem_unknown_record {entry : UnknownEntry} :
    entry ∈ (record valid inner).unknown style (.map entries) ↔ ∃ key node, (key, node) ∈ entries ∧
      ((key.keyName ∈ valid ∧ entry ∈ (under inner key).unknown style node) ∨
        key.keyName ∉ valid ∧ entry = ⟨style, valid, key, node⟩) := by
  rw [unknown_record, List.mem_flatMap]
  constructor
  · rintro ⟨⟨key, node⟩, hmem, hentry⟩
    by_cases hkey : key.keyName ∈ valid
    · exact ⟨key, node, hmem, .inl ⟨hkey, by simpa [hkey] using hentry⟩⟩
    · exact ⟨key, node, hmem, .inr ⟨hkey, by simpa [hkey] using hentry⟩⟩
  · rintro ⟨key, node, hmem, ⟨hkey, hentry⟩ | ⟨hkey, rfl⟩⟩
    · exact ⟨(key, node), hmem, by simpa [hkey] using hentry⟩
    · exact ⟨(key, node), hmem, by simp [hkey]⟩

theorem mem_keys (style : Style) {f : Finding} : f ∈ keys path valid what entries ↔
    ∃ key node, (key, node) ∈ entries ∧ key.keyName ∉ valid ∧
      (UnknownEntry.mk style valid key node).finding path what = f := by
  rw [keys, List.mem_filterMap]
  constructor
  · rintro ⟨⟨key, node⟩, hmem, hf⟩
    by_cases hkey : key.keyName ∈ valid
    · simp [hkey] at hf
    · exact ⟨key, node, hmem, hkey, by simpa [hkey, UnknownEntry.finding] using hf⟩
  · rintro ⟨key, node, hmem, hkey, rfl⟩
    exact ⟨(key, node), hmem, by simp [hkey, UnknownEntry.finding]⟩

theorem areAbout_keys : AreAbout ((record valid inner).unknown style (.map entries))
    (keys path valid what entries) := by
  intro f hf _
  obtain ⟨key, node, hmem, hkey, hfinding⟩ := (mem_keys style).mp hf
  exact ⟨_, mem_unknown_record.mpr ⟨key, node, hmem, .inr ⟨hkey, rfl⟩⟩, path, what, hfinding⟩

theorem Accounts.areAbout_field (h : Accounts shape check) (hkey : key ∈ valid)
    (hinner : inner key = shape) :
    AreAbout ((record valid inner).unknown style (.map entries)) (field path key entries check) := by
  subst hinner
  rw [field]
  cases hf : find? key entries with
  | none => exact allKnown_nil.areAbout _
  | some node =>
    exact (h.sound _ style node).mono fun entry hentry =>
      mem_unknown_record.mpr ⟨.str key, node, mem_of_find? hf, .inl ⟨hkey, hentry⟩⟩

theorem field_nil : (field path key entries fun _ _ => []) = [] := by
  rw [field]
  split <;> rfl

theorem isReported_record {findings : List Finding}
    (hdistinct : (record valid inner).HasDistinctKeys (.map entries)) (hquiet : Quiet findings)
    (hkeys : keys path valid what entries ⊆ findings)
    (hinner : ∀ name ∈ valid, ∃ sub, Accounts (inner name) sub ∧
      field path name entries sub ⊆ findings) :
    ∀ entry ∈ (record valid inner).unknown style (.map entries), entry.IsReported findings := by
  intro entry hentry
  obtain ⟨hnodup, hbelow⟩ := hdistinct
  obtain ⟨key, node, hmem, ⟨hkey, hunder⟩ | ⟨hkey, rfl⟩⟩ := mem_unknown_record.mp hentry
  · cases key with
    | str name =>
      obtain ⟨sub, hsub, hfield⟩ := hinner name hkey
      rw [field, find?_of_nodup hnodup hmem] at hfield
      have hreported := hsub.complete _ style node (hbelow name node hmem) (hquiet.mono hfield) entry
        hunder
      exact isReported_mono hreported hfield
    | null | bool | int | float | seq | map | tagged => cases hunder
  · exact ⟨path, what, hkeys ((mem_keys style).mpr ⟨key, node, hmem, hkey, rfl⟩)⟩

theorem accounts_record (what : String)
    (hsound : ∀ path style entries, AreAbout ((record valid inner).unknown style (.map entries))
      (check path (.map entries)))
    (hkeys : ∀ path entries, keys path valid what entries ⊆ check path (.map entries))
    (hinner : ∀ name ∈ valid, ∃ sub, Accounts (inner name) sub ∧
      ∀ path entries, field path name entries sub ⊆ check path (.map entries))
    (hother : ∀ path node, (∀ entries, node ≠ .map entries) → AllKnown (check path node)) :
    Accounts (record valid inner) check where
  sound path style node := by
    cases node with
    | map entries => exact hsound path style entries
    | null | bool | int | float | str | seq | tagged => exact (hother _ _ (by simp)).areAbout _
  complete path style node hdistinct hquiet entry hentry := by
    cases node with
    | map entries =>
      refine isReported_record hdistinct hquiet (hkeys path entries) (fun name hname => ?_) entry hentry
      obtain ⟨sub, hsub, hfield⟩ := hinner name hname
      exact ⟨sub, hsub, hfield path entries⟩
    | null | bool | int | float | str | seq | tagged => cases hentry

theorem not_mem_of_allKnown {f : Finding} {findings : List Finding} (h : AllKnown findings)
    (hkey : f.issue.isUnknownKey = true) : f ∉ findings :=
  fun hf => absurd (h f hf) (by simp [hkey])

theorem accounts_flat (valid : List String) (what : String)
    (hmap : ∀ path entries f, f.issue.isUnknownKey = true →
      (f ∈ check path (.map entries) ↔ f ∈ keys path valid what entries))
    (hother : ∀ path node, (∀ entries, node ≠ .map entries) → AllKnown (check path node)) :
    Accounts (flat valid) check := by
  refine accounts_record what (fun path style entries f hf hkey => ?_)
    (fun path entries f hf => ?_)
    (fun _ _ => ⟨_, accounts_leaf fun _ _ => allKnown_nil, fun path entries => ?_⟩) hother
  · exact areAbout_keys f ((hmap path entries f hkey).mp hf) hkey
  · obtain ⟨key, node, -, -, rfl⟩ := (mem_keys .plain).mp hf
    exact (hmap path entries _ rfl).mpr hf
  · simp [field_nil]

/-! ## Lists -/

theorem areAbout_items {unknown : List UnknownEntry} {nodes : List Node}
    (h : ∀ node ∈ nodes, ∀ place, AreAbout unknown (check place node)) (path : String) (index : Nat) :
    AreAbout unknown (items path check index nodes) := by
  induction nodes generalizing index with
  | nil => exact allKnown_nil.areAbout _
  | cons node nodes ih =>
    obtain ⟨hhead, htail⟩ := List.forall_mem_cons.mp h
    exact areAbout_append.mpr ⟨hhead _, ih htail _⟩

theorem subset_items (check : String → Node → List Finding) {nodes : List Node} (path : String)
    (index : Nat) : ∀ node ∈ nodes, ∃ place, check place node ⊆ items path check index nodes := by
  induction nodes generalizing index with
  | nil => simp
  | cons node nodes ih =>
    refine List.forall_mem_cons.mpr ⟨⟨_, List.subset_append_left _ _⟩, fun node hnode => ?_⟩
    obtain ⟨place, hsub⟩ := ih (index + 1) node hnode
    exact ⟨place, List.subset_append_of_subset_right _ hsub⟩

/-- The check of a value that must be a list. -/
def listNode (check : String → Node → List Finding) (place : String) (node : Node) : List Finding :=
  match node with
  | .seq nodes => items place check 0 nodes
  | _ => [⟨place, .notList node.kindName⟩]

theorem list_eq_field (path key : String) (entries : Entries) (check : String → Node → List Finding) :
    list path key entries check = field path key entries (listNode check) := rfl

theorem Accounts.list (h : Accounts shape check) : Accounts (.list shape) (listNode check) where
  sound path style node := by
    cases node with
    | seq nodes =>
      refine areAbout_items (fun node hnode place => ?_) path 0
      exact (h.sound place style node).mono fun entry hentry =>
        List.mem_flatMap.mpr ⟨node, hnode, hentry⟩
    | null | bool | int | float | str | map | tagged =>
      exact AllKnown.areAbout (by simp [listNode, Issue.isUnknownKey]) _
  complete path style node hdistinct hquiet entry hentry := by
    cases node with
    | seq nodes =>
      obtain ⟨node, hnode, hentry⟩ := List.mem_flatMap.mp hentry
      obtain ⟨place, hsub⟩ := subset_items check path 0 node hnode
      exact isReported_mono
        (h.complete place style node (hdistinct node hnode) (hquiet.mono hsub) entry hentry) hsub
    | null | bool | int | float | str | map | tagged => cases hentry

/-! ## Mappings -/

theorem allKnown_mapping {check : String → Entries → List Finding} (path : String) (node : Node)
    (h : ∀ entries, node ≠ .map entries) : AllKnown (mapping what check path node) := by
  cases node with
  | map entries => exact absurd rfl (h entries)
  | null | bool | int | float | str | seq | tagged => simp [mapping, Issue.isUnknownKey]

theorem accounts_flatMapping (valid : List String) (what : String)
    {check : String → Entries → List Finding}
    (h : ∀ path entries f, f.issue.isUnknownKey = true →
      (f ∈ check path entries ↔ f ∈ keys path valid what entries)) :
    Accounts (flat valid) (mapping what check) :=
  accounts_flat valid what h allKnown_mapping

end

/-! ## The items of a zone -/

theorem accounts_valueItem (check : String → Lexical.Result Unit) :
    Accounts (flat Keys.valueItem) (valueItem check) := by
  refine accounts_flat _ "list item" (fun path entries f hkey => ?_) (fun path node h => ?_)
  · rw [valueItem, List.mem_append, List.mem_append]
    rw [or_iff_left (not_mem_of_allKnown (allKnown_loop path entries) hkey)]
    refine or_iff_left (not_mem_of_allKnown ?_ hkey)
    split
    · simp [Issue.isUnknownKey]
    · split <;> simp [Issue.isUnknownKey]
  · cases node with
    | map entries => exact absurd rfl (h entries)
    | null | bool | int | float | str | seq | tagged =>
      simp [valueItem, Node.scalarText?, Issue.isUnknownKey]

@[simp]
theorem allKnown_portField (path what : String) (entries : Entries) :
    AllKnown (portField path what entries) := by
  rw [portField]
  split <;> simp [Issue.isUnknownKey]

theorem accounts_portItem : Accounts (flat Keys.port) portItem := by
  refine accounts_flat _ "port" (fun path entries f hkey => ?_) (fun path node h => ?_)
  · simp [portItem, not_mem_of_allKnown _ hkey]
  · cases node with
    | map entries => exact absurd rfl (h entries)
    | null | bool | int | float | str | seq | tagged =>
      simp [portItem, Node.scalarText?, Issue.isUnknownKey]

theorem accounts_forwardPort : Accounts (flat Keys.forwardPort) forwardPort := by
  refine accounts_flat _ "forward port" (fun path entries f hkey => ?_) (fun path node h => ?_)
  · simp [forwardPort, not_mem_of_allKnown _ hkey]
  · cases node with
    | map entries => exact absurd rfl (h entries)
    | str spec =>
      rw [forwardPort]
      split <;> simp [Issue.isUnknownKey]
    | null | bool | int | float | seq | tagged => simp [forwardPort, Issue.isUnknownKey]

@[simp]
theorem allKnown_ruleValues (path : String) (rule : RichRule) : AllKnown (ruleValues path rule) := by
  have hvalue (key : String) (check : String → Lexical.Result Unit) (text : Option String) :
      AllKnown (ruleValue path key check text) := by
    cases text <;> simp [ruleValue]
  simp [ruleValues, hvalue]

theorem accounts_rulePart (key : String) (valid : List String) :
    Accounts (flat valid) (mapping key fun place inner =>
      keys place valid key inner ++ scalars place valid inner) :=
  accounts_flatMapping valid key fun path entries f hkey => by simp [not_mem_of_allKnown _ hkey]

theorem accounts_richRule : Accounts Shape.richRule richRule := by
  have heffect (path : String) (b : Bool) : AllKnown (if b then [] else [⟨path, .noEffect⟩]) :=
    allKnown_ite allKnown_nil (by simp [Issue.isUnknownKey])
  have hvalues (path : String) (rule? : Option RichRule) :
      AllKnown ((rule?.map (ruleValues path)).getD []) := by
    cases rule? <;> simp
  refine accounts_record "rich rule" (fun path style entries => ?_)
    (fun path entries f hf => by simp [richRule, hf]) (fun name _ => ?_) (fun path node h => ?_)
  · have hpart {key : String} {valid : List String} (hclause : ruleClause key = flat valid)
        (hkey : key ∈ Keys.richRule) :
        AreAbout (Shape.richRule.unknown style (.map entries)) (rulePart path key valid entries) :=
      (accounts_rulePart key valid).areAbout_field hkey hclause
    have hflags := allKnown_flatMap fun key (_ : key ∈ ruleFlags) => allKnown_flag path key entries
    simp only [richRule, areAbout_append]
    refine ⟨⟨⟨⟨⟨⟨⟨⟨areAbout_keys, ?loop⟩, ?scalars⟩, ?flags⟩, ?log⟩, ?forward⟩, ?source⟩, ?effect⟩, ?values⟩
    case loop => exact (allKnown_loop _ _).areAbout _
    case scalars => exact (allKnown_scalars _ _ _).areAbout _
    case flags => exact hflags.areAbout _
    case log | forward | source => exact hpart rfl (by decide)
    case effect => exact (heffect _ _).areAbout _
    case values => exact (hvalues _ _).areAbout _
  · unfold ruleClause
    split
    · exact ⟨_, accounts_rulePart "log" _, fun path entries f hf => by
        simp [richRule, rulePart, hf]⟩
    · exact ⟨_, accounts_rulePart "forward_port" _, fun path entries f hf => by
        simp [richRule, rulePart, hf]⟩
    · exact ⟨_, accounts_rulePart "source_port" _, fun path entries f hf => by
        simp [richRule, rulePart, hf]⟩
    · exact ⟨_, accounts_leaf fun _ _ => allKnown_nil, fun path entries => by simp [field_nil]⟩
  · cases node with
    | map entries => exact absurd rfl (h entries)
    | str text =>
      simp only [richRule, allKnown_append]
      refine ⟨⟨?_, heffect _ _⟩, allKnown_ruleValues path _⟩
      split <;> simp [Issue.isUnknownKey]
    | null | bool | int | float | seq | tagged => simp [richRule, Issue.isUnknownKey]

/-! ## Zones -/

theorem accounts_zoneField (f : ZoneField) : ∃ check, Accounts (Shape.zoneField f) check ∧
    ∀ path entries, zoneField path entries f = field path f.key entries check := by
  cases f with
  | target => exact ⟨_, accounts_leaf (allKnown_scalarNode _), fun _ _ => rfl⟩
  | forward | masquerade | icmpBlockInversion =>
    exact ⟨_, accounts_leaf allKnown_flagNode, fun _ _ => rfl⟩
  | interfaces | sources | services | protocols | icmpBlocks =>
    exact ⟨_, (accounts_valueItem _).item.list, fun _ _ => rfl⟩
  | ports | sourcePorts => exact ⟨_, accounts_portItem.item.list, fun _ _ => rfl⟩
  | forwardPorts => exact ⟨_, accounts_forwardPort.item.list, fun _ _ => rfl⟩
  | richRules => exact ⟨_, accounts_richRule.item.list, fun _ _ => rfl⟩

theorem accounts_zone : Accounts Shape.zone (mapping "zone" zone) := by
  have hunder (f : ZoneField) :
      ((ZoneField.ofKey? f.key).map Shape.zoneField).getD .leaf = Shape.zoneField f := by
    rw [ZoneField.ofKey?_key]
    rfl
  refine accounts_record "zone" (fun path style entries => ?_)
    (fun path entries => List.subset_append_left _ _) (fun name hname => ?_) allKnown_mapping
  · refine areAbout_append.mpr ⟨areAbout_keys, areAbout_flatMap fun f _ => ?_⟩
    obtain ⟨check, hcheck, hfield⟩ := accounts_zoneField f
    rw [hfield]
    exact hcheck.areAbout_field (List.mem_map_of_mem f.mem_all) (hunder f)
  · obtain ⟨f, -, rfl⟩ := List.mem_map.mp hname
    obtain ⟨check, hcheck, hfield⟩ := accounts_zoneField f
    refine ⟨check, (hunder f).symm ▸ hcheck, fun path entries g hg => List.mem_append_right _ ?_⟩
    exact List.mem_flatMap.mpr ⟨f, f.mem_all, hfield path entries ▸ hg⟩

theorem accounts_zones : Accounts (.names Shape.zone) zones where
  sound path style node := by
    cases node with
    | map entries =>
      refine areAbout_flatMap fun entry hentry => ?_
      obtain ⟨key, node⟩ := entry
      suffices habout : AreAbout (Shape.zone.unknown style node) (zoneEntry key node) from
        habout.mono fun u hu => List.mem_flatMap.mpr ⟨_, hentry, hu⟩
      simp only [zoneEntry]
      split
      · split
        · exact allKnown_nil.areAbout _
        · exact accounts_zone.sound _ style node
      · exact AllKnown.areAbout (by simp [Issue.isUnknownKey]) _
    | tagged tag value =>
      refine AllKnown.areAbout ?_ _
      rw [zones]
      split <;> simp [mapping, Issue.isUnknownKey]
    | null | bool | int | float | str | seq =>
      exact AllKnown.areAbout (by simp [zones, untag, mapping, Issue.isUnknownKey]) _
  complete path style node hdistinct hquiet entry hentry := by
    cases node with
    | map entries =>
      obtain ⟨⟨key, node⟩, hmem, hentry⟩ := List.mem_flatMap.mp hentry
      have hsub : zoneEntry key node ⊆ zones path (.map entries) :=
        fun f hf => List.mem_flatMap.mpr ⟨(key, node), hmem, hf⟩
      have hzone : ∃ place, zoneEntry key node = mapping "zone" zone place node := by
        cases node with
        | map inner =>
          cases hkey : key.untag with
          | str name => exact ⟨childPath "zones" name, by simp [zoneEntry, hkey, untag]⟩
          | null | bool | int | float | seq | map | tagged =>
            cases hquiet ⟨"zones", .zoneName⟩ (hsub (by simp [zoneEntry, hkey]))
        | null | bool | int | float | str | seq | tagged => cases hentry
      obtain ⟨place, hzone⟩ := hzone
      rw [hzone] at hsub
      have hreported := accounts_zone.complete place style node (hdistinct _ hmem)
        (hquiet.mono hsub) entry hentry
      exact isReported_mono hreported hsub
    | null | bool | int | float | str | seq | tagged => cases hentry

/-! ## The direct block -/

@[simp]
theorem allKnown_directFamily (path : String) (entries : Entries) :
    AllKnown (directFamily path entries) :=
  allKnown_checked path "ipv" _ entries

@[simp]
theorem allKnown_scalar (path key : String) (entries : Entries) :
    AllKnown (scalar path key entries) :=
  allKnown_checked path key _ entries

@[simp]
theorem allKnown_families (path : String) (entries : Entries) : AllKnown (families path entries) := by
  rw [families]
  split
  · refine allKnown_items (fun node _ place => ?_) _ _
    split <;> simp [Issue.isUnknownKey]
  · exact allKnown_directFamily path entries

theorem accounts_groupPassthrough : Accounts (flat Keys.groupPassthrough) groupPassthrough := by
  refine accounts_flat _ "rule group passthrough" (fun path entries f hkey => ?_)
    (fun path node h => ?_)
  · simp [groupPassthrough, not_mem_of_allKnown _ hkey]
  · cases node with
    | map entries => exact absurd rfl (h entries)
    | null | bool | int | float | str | seq | tagged => simp [groupPassthrough, Issue.isUnknownKey]

theorem accounts_groupRule : Accounts (flat Keys.groupRule) (mapping "rule group rule" groupRule) :=
  accounts_flatMapping Keys.groupRule _ fun path entries f hkey => by
    simp [groupRule, not_mem_of_allKnown _ hkey]

theorem accounts_ruleGroup : Accounts Shape.ruleGroup (mapping "rule group" ruleGroup) := by
  have hrules := accounts_groupRule.list
  have hpassthroughs := accounts_groupPassthrough.item.list
  refine accounts_record "rule group" (fun path style entries => ?_)
    (fun path entries f hf => by simp [mapping, ruleGroup, hf]) (fun name _ => ?_) allKnown_mapping
  · simp only [mapping, ruleGroup, areAbout_append, list_eq_field]
    refine ⟨⟨⟨⟨⟨⟨areAbout_keys, ?required⟩, ?scalars⟩, ?priority⟩, ?families⟩, ?rules⟩, ?passthroughs⟩
    case required => exact (allKnown_required _ _ _ _).areAbout _
    case scalars => exact (allKnown_scalars _ _ _).areAbout _
    case priority => exact (allKnown_priority _ _).areAbout _
    case families => exact (allKnown_families _ _).areAbout _
    case rules => exact hrules.areAbout_field (by decide) rfl
    case passthroughs => exact hpassthroughs.areAbout_field (by decide) rfl
  · unfold groupMembers
    split
    · exact ⟨_, hrules, fun path entries f hf => by simp [mapping, ruleGroup, list_eq_field, hf]⟩
    · exact ⟨_, hpassthroughs, fun path entries f hf => by simp [mapping, ruleGroup, list_eq_field, hf]⟩
    · exact ⟨_, accounts_leaf fun _ _ => allKnown_nil, fun path entries => by simp [field_nil]⟩

theorem accounts_directChain :
    Accounts (flat Keys.directChain) (mapping "direct chain" directChain) :=
  accounts_flatMapping Keys.directChain _ fun path entries f hkey => by
    simp [directChain, not_mem_of_allKnown _ hkey]

theorem accounts_directRule : Accounts (flat Keys.directRule) (mapping "direct rule" directRule) :=
  accounts_flatMapping Keys.directRule _ fun path entries f hkey => by
    simp [directRule, not_mem_of_allKnown _ hkey]

theorem accounts_passthrough : Accounts (flat Keys.passthrough) (mapping "passthrough" passthrough) :=
  accounts_flatMapping Keys.passthrough _ fun path entries f hkey => by
    simp [passthrough, not_mem_of_allKnown _ hkey]

theorem accounts_direct : Accounts Shape.direct (mapping "direct" direct) := by
  have hchains := accounts_directChain.list
  have hrules := accounts_directRule.list
  have hpassthroughs := accounts_passthrough.list
  have hgroups := accounts_ruleGroup.list
  refine accounts_record "direct" (fun path style entries => ?_)
    (fun path entries f hf => by simp [mapping, direct, hf]) (fun name _ => ?_) allKnown_mapping
  · simp only [mapping, direct, areAbout_append, list_eq_field]
    exact ⟨⟨⟨⟨areAbout_keys, hchains.areAbout_field (by decide) rfl⟩,
      hrules.areAbout_field (by decide) rfl⟩,
      hpassthroughs.areAbout_field (by decide) rfl⟩,
      hgroups.areAbout_field (by decide) rfl⟩
  · unfold directList
    split
    · exact ⟨_, hchains, fun path entries f hf => by simp [mapping, direct, list_eq_field, hf]⟩
    · exact ⟨_, hrules, fun path entries f hf => by simp [mapping, direct, list_eq_field, hf]⟩
    · exact ⟨_, hpassthroughs, fun path entries f hf => by simp [mapping, direct, list_eq_field, hf]⟩
    · exact ⟨_, hgroups, fun path entries f hf => by simp [mapping, direct, list_eq_field, hf]⟩
    · exact ⟨_, accounts_leaf fun _ _ => allKnown_nil, fun path entries => by simp [field_nil]⟩

/-! ## Documents -/

theorem allKnown_variableEntry (key value : Node) : AllKnown (variableEntry key value) := by
  unfold variableEntry
  split
  · rw [allKnown_append]
    exact ⟨allKnown_ite (by simp [Issue.isUnknownKey]) allKnown_nil,
      allKnown_ite allKnown_nil (by simp [Issue.isUnknownKey])⟩
  · simp [Issue.isUnknownKey]

theorem accounts_variables : Accounts .leaf (mapping "variables" fun _ inner =>
    inner.flatMap fun (k, v) => variableEntry k v) := by
  refine accounts_leaf fun path node => ?_
  cases node with
  | map entries => exact allKnown_flatMap fun entry _ => allKnown_variableEntry entry.1 entry.2
  | null | bool | int | float | str | seq | tagged => simp [mapping, Issue.isUnknownKey]

theorem areAbout_ofDocument (document : Node) :
    AreAbout (Shape.document.unknown .plain document) (ofDocument document) := by
  cases document with
  | map entries =>
    simp only [ofDocument, areAbout_append]
    exact ⟨⟨⟨areAbout_keys, accounts_variables.areAbout_field (by decide) rfl⟩,
      accounts_zones.areAbout_field (by decide) rfl⟩,
      accounts_direct.areAbout_field (by decide) rfl⟩
  | null | bool | int | float | str | seq | tagged =>
    exact AllKnown.areAbout (by simp [ofDocument, Issue.isUnknownKey]) _

theorem isReported_ofDocument {document : Node} (hquiet : Quiet (ofDocument document))
    (hdistinct : Shape.document.HasDistinctKeys document) :
    ∀ entry ∈ Shape.document.unknown .plain document, entry.IsReported (ofDocument document) := by
  cases document with
  | map entries =>
    have hkeys : keys "" Keys.topLevel "top-level" entries ⊆ ofDocument (.map entries) :=
      fun f hf => by simp [ofDocument, hf]
    refine isReported_record hdistinct hquiet hkeys fun name _ => ?_
    unfold topLevel
    split
    · exact ⟨_, accounts_zones, fun f hf => by simp [ofDocument, hf]⟩
    · exact ⟨_, accounts_direct, fun f hf => by simp [ofDocument, hf]⟩
    · exact ⟨_, accounts_leaf fun _ _ => allKnown_nil, by simp [field_nil]⟩
  | null | bool | int | float | str | seq | tagged => intro entry hentry; cases hentry

theorem allKnown_ofDocument_prune (document : Node) :
    AllKnown (ofDocument (Shape.document.prune document)) := by
  have habout := areAbout_ofDocument (Shape.document.prune document)
  rw [unknown_prune] at habout
  exact allKnown_of_areAbout_nil habout

end Finding

end ZoneScript
