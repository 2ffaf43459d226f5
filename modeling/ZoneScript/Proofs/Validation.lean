import ZoneScript.Finding.Document
import ZoneScript.Proofs.JsonTree

/-!
# Checked documents are read

The checker and the reader walk through a document each on its own. Where the checker finds no error,
the reader finds none: a check of a field answers for the reader of that field, and a check of a
mapping for the record made of its fields.
-/

namespace ZoneScript

open Node Decode

namespace Finding

/-! ## Findings without an error -/

/-- Nothing but warnings. -/
def Quiet (findings : List Finding) : Prop :=
  ∀ f ∈ findings, f.issue.isWarning = true

@[simp]
theorem quiet_singleton (f : Finding) : Quiet [f] ↔ f.issue.isWarning = true := by
  simp [Quiet]

@[simp]
theorem quiet_append (fs gs : List Finding) : Quiet (fs ++ gs) ↔ Quiet fs ∧ Quiet gs := by
  simp only [Quiet, List.mem_append]
  exact ⟨fun h => ⟨fun f hf => h f (.inl hf), fun f hf => h f (.inr hf)⟩,
    fun h f hf => hf.elim (h.1 f) (h.2 f)⟩

theorem quiet_flatMap {α : Type} {xs : List α} {check : α → List Finding} :
    Quiet (xs.flatMap check) ↔ ∀ x ∈ xs, Quiet (check x) := by
  simp only [Quiet, List.mem_flatMap]
  exact ⟨fun h x hx f hf => h f ⟨x, hx, hf⟩, fun h f ⟨x, hx, hf⟩ => h x hx f hf⟩

theorem quiet_of_errors_eq_nil {findings : List Finding}
    (h : (Validation.ofFindings findings).errors = []) : Quiet findings := by
  have hnone := List.filter_eq_nil_iff.mp (List.map_eq_nil_iff.mp h)
  intro f hf
  simpa using hnone f hf

/-! ## Fields -/

section

variable {path key : String} {entries : Node.Entries} {node : Node}

theorem quiet_field {check : String → Node → List Finding} (hf : find? key entries = some node)
    (h : Quiet (field path key entries check)) : Quiet (check (childPath path key) node) := by
  rwa [field, hf] at h

theorem isSome_of_quiet (check : String → List Finding) {f : Finding}
    (hf : f.issue.isWarning = false)
    (h : Quiet (match node.scalarText? with | some s => check s | none => [f])) :
    node.scalarText?.isSome := by
  cases hs : node.scalarText? with
  | some s => rfl
  | none =>
    rw [hs] at h
    rw [(quiet_singleton f).mp h] at hf
    cases hf

theorem isSome_of_scalarNode {check : String → Lexical.Result Unit}
    (h : Quiet (scalarNode check path node)) : node.scalarText?.isSome :=
  isSome_of_quiet (value path check) (f := ⟨path, .notScalar node.kindName⟩) rfl h

theorem reads_of_checked {check : String → Lexical.Result Unit} (hj : node.IsJson)
    (hf : find? key entries = some node) (h : Quiet (checked path key check entries)) :
    Reads (Decode.scalar node) :=
  reads_scalar hj (isSome_of_scalarNode (quiet_field hf h))

theorem reads_of_scalars {keys : List String} (hj : node.IsJson) (hkey : key ∈ keys)
    (hf : find? key entries = some node) (h : Quiet (scalars path keys entries)) :
    Reads (Decode.scalar node) :=
  reads_of_checked hj hf (quiet_flatMap.mp h key hkey)

theorem reads_of_flag (hf : find? key entries = some node) (h : Quiet (flag path key entries)) :
    Reads (Decode.flag node) := by
  have hq := quiet_field hf h
  split at hq
  · rename_i b hb
    exact ⟨b, by simp [Decode.flag, hb]⟩
  · cases (quiet_singleton _).mp hq

theorem reads_of_loop (hf : find? "loop" entries = some node) (h : Quiet (loop path entries)) :
    Reads (Decode.text node) := by
  have hq := quiet_field hf h
  split at hq
  · rename_i s hs
    exact ⟨s, by simp [Decode.text, hs]⟩
  · cases (quiet_singleton _).mp hq

theorem fitsSigned_mono {n : Int} (h : Text.fitsSigned 32 n = true) :
    Text.fitsSigned 64 n = true := by
  cases n <;> simp only [Text.fitsSigned, Text.fitsUnsigned, decide_eq_true_eq] at h ⊢ <;>
    exact Nat.lt_trans h (by decide)

theorem reads_of_isPriority (h : isPriority node = true) : Reads (Decode.priority node) := by
  match node, h with
  | .int n, h =>
    rw [isPriority] at h
    exact ⟨n, by simp [Decode.priority, h, fitsSigned_mono h]⟩
  | .str s, h =>
    obtain ⟨n, hn⟩ := Option.isSome_iff_exists.mp h
    exact ⟨n, by simp [Decode.priority, hn]⟩

theorem reads_of_priority (hf : find? "priority" entries = some node)
    (h : Quiet (priority path entries)) : Reads (Decode.priority node) := by
  have hq := quiet_field hf h
  split at hq
  · exact reads_of_isPriority ‹_›
  · cases (quiet_singleton _).mp hq

end

/-! ## Lists and mappings -/

/-- A check answers for a reader: a JSON tree in which it finds no error is read. -/
def AnswersFor {α : Type} (check : String → Node → List Finding) (read : Node → Decode.Result α) :
    Prop :=
  ∀ path node, node.IsJson → Quiet (check path node) → Reads (read node)

theorem quiet_items {path : String} {check : String → Node → List Finding} {index : Nat}
    {nodes : List Node} (h : Quiet (items path check index nodes)) :
    ∀ node ∈ nodes, ∃ place, Quiet (check place node) := by
  induction nodes generalizing index with
  | nil => simp
  | cons node nodes ih =>
    obtain ⟨hnode, hrest⟩ := (quiet_append _ _).mp h
    exact List.forall_mem_cons.mpr ⟨⟨_, hnode⟩, ih hrest⟩

section

variable {α : Type} {path key : String} {entries : Node.Entries} {node : Node}
  {check : String → Node → List Finding}

theorem reads_of_list {read : Node → Decode.Result α} (hcheck : AnswersFor check read)
    (hj : node.IsJson) (hf : find? key entries = some node)
    (h : Quiet (list path key entries check)) : Reads (Decode.list read node) := by
  have hq := quiet_field hf h
  match node, hj, hq with
  | .seq nodes, hj, hq =>
    refine reads_list fun n hn => ?_
    obtain ⟨place, hplace⟩ := quiet_items hq n hn
    exact hcheck place n (hj.items n hn) hplace
  | .null, _, hq | .bool _, _, hq | .int _, _, hq | .float _, _, hq | .str _, _, hq
  | .map _, _, hq | .tagged _ _, _, hq => cases (quiet_singleton _).mp hq

theorem AnswersFor.optional {read : Node → Decode.Result α} (h : AnswersFor check read) :
    AnswersFor check (Decode.optional read) :=
  fun path node hj hq => reads_optional (h path node hj hq)

theorem answersFor_mapping {σ : Type} {what name : String} {keys : List String}
    {set : String → Node → σ → Decode.Result σ} {empty : σ} {style : Style}
    {check : String → Node.Entries → List Finding}
    (h : ∀ path entries, (Node.map entries).IsJson → Quiet (check path entries) →
      Sets keys set entries) :
    AnswersFor (mapping what check) (record style name keys set empty) := by
  intro path node hj hq
  match node, hj, hq with
  | .map entries, hj, hq => exact (h path entries hj hq).reads_record hj style name empty
  | .seq _, _, hq | .null, _, hq | .bool _, _, hq | .int _, _, hq | .float _, _, hq
  | .str _, _, hq | .tagged _ _, _, hq => cases (quiet_singleton _).mp hq

theorem answersFor_item {σ : Type} {name : String} {keys : List String}
    {set : String → Node → σ → Decode.Result σ} {empty : σ} {ofText : String → σ}
    (hmap : ∀ path entries, (Node.map entries).IsJson → Quiet (check path (.map entries)) →
      Sets keys set entries)
    (hscalar : ∀ path node, (∀ entries, node ≠ .map entries) → Quiet (check path node) →
      node.scalarText?.isSome) :
    AnswersFor check (shaped name fun node =>
      ((Decode.scalarText? node).map ofText).or (itemRecord keys set empty node)) := by
  intro path node hj hq
  refine reads_shaped hj ?_
  by_cases hm : ∃ entries, node = .map entries
  · obtain ⟨entries, rfl⟩ := hm
    exact (hmap path entries hj hq).isSome_itemRecord hj empty
  · have hs := hscalar path node (fun entries heq => hm ⟨entries, heq⟩) hq
    rw [← isSome_scalarText?] at hs
    simp [hs]

end

/-! ## The items of a zone -/

section

variable {path : String} {entries : Node.Entries}

theorem sets_valueItem {check : String → Lexical.Result Unit} (hj : (Node.map entries).IsJson)
    (hq : Quiet (valueItem check path (.map entries))) :
    Sets Keys.valueItem setValueItem entries := by
  obtain ⟨hfields, hvalue⟩ := (quiet_append _ _).mp hq
  obtain ⟨-, hloop⟩ := (quiet_append _ _).mp hfields
  simp only [Keys.valueItem, sets_cons]
  refine ⟨fun node hf _ => ?_, fun node hf _ => ?_, sets_nil⟩
  · rw [hf] at hvalue
    have hs := isSome_of_quiet _ (f := ⟨_, .notScalar node.kindName⟩) rfl hvalue
    exact reads_map.mpr (reads_scalar (hj.value hf) hs)
  · exact reads_map.mpr (reads_optional (reads_of_loop hf hloop))

theorem answersFor_valueItem (check : String → Lexical.Result Unit) :
    AnswersFor (valueItem check) (shaped "Repr" valueItem?) := by
  refine answersFor_item (fun _ _ hj hq => sets_valueItem hj hq) fun path node hm hq => ?_
  refine isSome_of_quiet (value path check)
    (f := ⟨path, .valueItemShape node.kindName⟩) rfl ?_
  cases node with
  | map entries => exact absurd rfl (hm entries)
  | _ => exact hq

theorem reads_of_portField {what : String} {node : Node} (hj : node.IsJson)
    (hf : find? "port" entries = some node) (h : Quiet (portField path what entries)) :
    Reads (Decode.scalar node) := by
  rw [portField, hasKey, hf] at h
  exact reads_of_checked hj hf h

theorem sets_portItem (hj : (Node.map entries).IsJson)
    (hq : Quiet (portItem path (.map entries))) : Sets Keys.port setPortItem entries := by
  simp only [portItem, quiet_append] at hq
  obtain ⟨⟨⟨-, hloop⟩, hport⟩, hprotocol⟩ := hq
  simp only [Keys.port, sets_cons]
  refine ⟨fun node hf _ => ?_, fun node hf _ => ?_, fun node hf _ => ?_, sets_nil⟩
  · exact reads_map.mpr (reads_of_portField (hj.value hf) hf hport)
  · exact reads_map.mpr (reads_optional (reads_of_checked (hj.value hf) hf hprotocol))
  · exact reads_map.mpr (reads_optional (reads_of_loop hf hloop))

theorem answersFor_portItem : AnswersFor portItem (shaped "Repr" portItem?) := by
  refine answersFor_item (fun _ _ hj hq => sets_portItem hj hq) fun path node hm hq => ?_
  refine isSome_of_quiet (value path Lexical.portWithProtocol)
    (f := ⟨path, .portShape node.kindName⟩) rfl ?_
  cases node with
  | map entries => exact absurd rfl (hm entries)
  | _ => exact hq

theorem sets_forwardPort (hj : (Node.map entries).IsJson)
    (hq : Quiet (forwardPort path (.map entries))) :
    Sets Keys.forwardPort setForwardPort entries := by
  simp only [forwardPort, quiet_append] at hq
  obtain ⟨⟨⟨⟨⟨-, hloop⟩, hport⟩, hprotocol⟩, htoPort⟩, htoAddr⟩ := hq
  simp only [Keys.forwardPort, sets_cons]
  refine ⟨fun node hf _ => ?_, fun node hf _ => ?_, fun node hf _ => ?_, fun node hf _ => ?_,
    fun node hf _ => ?_, sets_nil⟩
  · exact reads_map.mpr (reads_of_portField (hj.value hf) hf hport)
  · exact reads_map.mpr (reads_optional (reads_of_checked (hj.value hf) hf hprotocol))
  · exact reads_map.mpr (reads_optional (reads_of_checked (hj.value hf) hf htoPort))
  · exact reads_map.mpr (reads_optional (reads_of_checked (hj.value hf) hf htoAddr))
  · exact reads_map.mpr (reads_optional (reads_of_loop hf hloop))

theorem answersFor_forwardPort : AnswersFor forwardPort Decode.forwardPort := by
  intro path node hj hq
  match node, hj, hq with
  | .map entries, hj, hq =>
    exact reads_shaped hj ((sets_forwardPort hj hq).isSome_itemRecord hj _)
  | .str spec, _, hq =>
    rw [forwardPort] at hq
    rw [Decode.forwardPort]
    cases hspec : ForwardPort.ofSpec? spec with
    | ok item => exact reads_ok item
    | error e =>
      rw [hspec] at hq
      cases (quiet_singleton _).mp hq
  | .null, _, hq | .bool _, _, hq | .int _, _, hq | .float _, _, hq | .seq _, _, hq
  | .tagged _ _, _, hq => cases (quiet_singleton _).mp hq

/-! ## Rich rules -/

theorem reads_of_rulePart {σ : Type} {style : Style} {key name : String} {keys : List String}
    {set : String → Node → σ → Decode.Result σ} {empty : σ} {node : Node}
    (hset : ∀ key ∈ keys, ∀ node record, Reads (Decode.scalar node) → Reads (set key node record))
    (hj : node.IsJson) (hf : find? key entries = some node)
    (h : Quiet (rulePart path key keys entries)) :
    Reads (Decode.optional (record style name keys set empty) node) := by
  refine (answersFor_mapping fun place inner hj hq => ?_).optional _ node hj (quiet_field hf h)
  obtain ⟨-, hscalars⟩ := (quiet_append _ _).mp hq
  intro key hkey value hvalue record
  exact hset key hkey value record (reads_of_scalars (hj.value hvalue) hkey hvalue hscalars)

theorem reads_setRichLog :
    ∀ key ∈ Keys.richLog, ∀ node log, Reads (Decode.scalar node) →
      Reads (setRichLog key node log) := by
  intro key hkey node log h
  simp only [Keys.richLog, List.mem_cons, List.not_mem_nil, or_false] at hkey
  rcases hkey with rfl | rfl | rfl <;> exact reads_map.mpr (reads_optional h)

theorem reads_setRichForwardPort :
    ∀ key ∈ Keys.richForwardPort, ∀ node item, Reads (Decode.scalar node) →
      Reads (setRichForwardPort key node item) := by
  intro key hkey node item h
  simp only [Keys.richForwardPort, List.mem_cons, List.not_mem_nil, or_false] at hkey
  rcases hkey with rfl | rfl | rfl | rfl
  · exact reads_map.mpr h
  · exact reads_map.mpr h
  · exact reads_map.mpr (reads_optional h)
  · exact reads_map.mpr (reads_optional h)

theorem reads_setRichSourcePort :
    ∀ key ∈ Keys.richSourcePort, ∀ node item, Reads (Decode.scalar node) →
      Reads (setRichSourcePort key node item) := by
  intro key hkey node item h
  simp only [Keys.richSourcePort, List.mem_cons, List.not_mem_nil, or_false] at hkey
  rcases hkey with rfl | rfl <;> exact reads_map.mpr h

theorem sets_richRule (style : Style) (hj : (Node.map entries).IsJson)
    (hq : Quiet (richRule path (.map entries))) :
    Sets Keys.richRule (setRichRule style) entries := by
  simp only [richRule, quiet_append] at hq
  obtain ⟨⟨⟨⟨⟨⟨⟨⟨-, hloop⟩, hscalars⟩, hflags⟩, hlog⟩, hforward⟩, hsource⟩, -⟩, -⟩ := hq
  have scalar : ∀ key ∈ ruleScalars, ∀ node, find? key entries = some node →
      Reads (Decode.optional Decode.scalar node) := fun key hkey node hf =>
    reads_optional (reads_of_scalars (hj.value hf) hkey hf hscalars)
  have flag : ∀ key ∈ ruleFlags, ∀ node, find? key entries = some node →
      Reads (Decode.flag node) := fun key hkey node hf =>
    reads_of_flag hf (quiet_flatMap.mp hflags key hkey)
  intro key hkey node hf rule
  simp only [Keys.richRule, List.mem_cons, List.not_mem_nil, or_false] at hkey
  rcases hkey with rfl | rfl | rfl | rfl | rfl | rfl | rfl | rfl | rfl | rfl | rfl | rfl | rfl | rfl
    | rfl | rfl | rfl | rfl | rfl
  · exact reads_map.mpr (scalar "family" (by decide) node hf)
  · exact reads_map.mpr (scalar "source" (by decide) node hf)
  · exact reads_map.mpr (flag "source_invert" (by decide) node hf)
  · exact reads_map.mpr (scalar "destination" (by decide) node hf)
  · exact reads_map.mpr (flag "destination_invert" (by decide) node hf)
  · exact reads_map.mpr (scalar "service" (by decide) node hf)
  · exact reads_map.mpr (scalar "port" (by decide) node hf)
  · exact reads_map.mpr (scalar "protocol" (by decide) node hf)
  · exact reads_map.mpr (scalar "icmp_block" (by decide) node hf)
  · exact reads_map.mpr (scalar "icmp_type" (by decide) node hf)
  · exact reads_map.mpr (flag "masquerade" (by decide) node hf)
  · exact reads_map.mpr (reads_of_rulePart reads_setRichForwardPort (hj.value hf) hf hforward)
  · exact reads_map.mpr (reads_of_rulePart reads_setRichSourcePort (hj.value hf) hf hsource)
  · exact reads_map.mpr (reads_of_rulePart reads_setRichLog (hj.value hf) hf hlog)
  · exact reads_map.mpr (flag "audit" (by decide) node hf)
  · exact reads_map.mpr (scalar "action" (by decide) node hf)
  · exact reads_map.mpr (scalar "reject_type" (by decide) node hf)
  · exact reads_map.mpr (scalar "mark_set" (by decide) node hf)
  · exact reads_map.mpr (reads_optional (reads_of_loop hf hloop))

theorem answersFor_richRule : AnswersFor richRule (shaped "Repr" richRuleItem?) := by
  intro path node hj hq
  refine reads_shaped hj ?_
  match node, hj, hq with
  | .map entries, hj, hq =>
    exact ((sets_richRule .loose hj hq).reads_record hj .loose "RichRule" {}).toOption
  | .str rule, _, _ => rfl
  | .null, _, hq | .bool _, _, hq | .int _, _, hq | .float _, _, hq | .seq _, _, hq
  | .tagged _ _, _, hq => cases (quiet_singleton _).mp hq

/-! ## Zones -/

theorem sets_zone (hj : (Node.map entries).IsJson) (hq : Quiet (zone path entries)) :
    Sets Keys.zone setZone entries := by
  obtain ⟨-, hfields⟩ := (quiet_append _ _).mp hq
  intro key hkey node hf z
  obtain ⟨f, hmem, rfl⟩ := List.mem_map.mp hkey
  have hfield := quiet_flatMap.mp hfields f hmem
  have hnode := hj.value hf
  cases f with
  | target => exact reads_map.mpr (reads_optional (reads_of_checked hnode hf hfield))
  | forward | masquerade | icmpBlockInversion =>
    exact reads_map.mpr (reads_optional (reads_of_flag hf hfield))
  | interfaces | sources | services | protocols | icmpBlocks =>
    exact reads_map.mpr (reads_of_list (answersFor_valueItem _) hnode hf hfield)
  | ports | sourcePorts =>
    exact reads_map.mpr (reads_of_list answersFor_portItem hnode hf hfield)
  | forwardPorts => exact reads_map.mpr (reads_of_list answersFor_forwardPort hnode hf hfield)
  | richRules => exact reads_map.mpr (reads_of_list answersFor_richRule hnode hf hfield)

end

/-! ## The direct block -/

section

variable {path : String} {entries : Node.Entries}

theorem sets_directChain (hj : (Node.map entries).IsJson)
    (hq : Quiet (directChain path entries)) : Sets Keys.directChain setDirectChain entries := by
  simp only [directChain, quiet_append] at hq
  obtain ⟨⟨-, hfamily⟩, hscalars⟩ := hq
  simp only [Keys.directChain, sets_cons]
  refine ⟨fun node hf _ => ?_, fun node hf _ => ?_, fun node hf _ => ?_, sets_nil⟩
  · exact reads_map.mpr (reads_of_checked (hj.value hf) hf hfamily)
  · exact reads_map.mpr (reads_of_scalars (hj.value hf) (by decide) hf hscalars)
  · exact reads_map.mpr (reads_of_scalars (hj.value hf) (by decide) hf hscalars)

theorem sets_directRule (hj : (Node.map entries).IsJson)
    (hq : Quiet (directRule path entries)) : Sets Keys.directRule setDirectRule entries := by
  simp only [directRule, quiet_append] at hq
  obtain ⟨⟨⟨⟨-, hfamily⟩, hscalars⟩, hpriority⟩, hloop⟩ := hq
  simp only [Keys.directRule, sets_cons]
  refine ⟨fun node hf _ => ?_, fun node hf _ => ?_, fun node hf _ => ?_, fun node hf _ => ?_,
    fun node hf _ => ?_, fun node hf _ => ?_, sets_nil⟩
  · exact reads_map.mpr (reads_of_checked (hj.value hf) hf hfamily)
  · exact reads_map.mpr (reads_of_scalars (hj.value hf) (by decide) hf hscalars)
  · exact reads_map.mpr (reads_of_scalars (hj.value hf) (by decide) hf hscalars)
  · exact reads_map.mpr (reads_of_priority hf hpriority)
  · exact reads_map.mpr (reads_of_scalars (hj.value hf) (by decide) hf hscalars)
  · exact reads_map.mpr (reads_optional (reads_of_loop hf hloop))

theorem sets_passthrough (hj : (Node.map entries).IsJson)
    (hq : Quiet (passthrough path entries)) : Sets Keys.passthrough setPassthrough entries := by
  simp only [passthrough, quiet_append] at hq
  obtain ⟨⟨⟨-, hfamily⟩, hargs⟩, hloop⟩ := hq
  simp only [Keys.passthrough, sets_cons]
  refine ⟨fun node hf _ => ?_, fun node hf _ => ?_, fun node hf _ => ?_, sets_nil⟩
  · exact reads_map.mpr (reads_of_checked (hj.value hf) hf hfamily)
  · exact reads_map.mpr (reads_of_checked (hj.value hf) hf hargs)
  · exact reads_map.mpr (reads_optional (reads_of_loop hf hloop))

theorem sets_groupRule (hj : (Node.map entries).IsJson)
    (hq : Quiet (groupRule path entries)) : Sets Keys.groupRule setGroupRule entries := by
  simp only [groupRule, quiet_append] at hq
  obtain ⟨⟨⟨-, hargs⟩, hpriority⟩, hloop⟩ := hq
  simp only [Keys.groupRule, sets_cons]
  refine ⟨fun node hf _ => ?_, fun node hf _ => ?_, fun node hf _ => ?_, sets_nil⟩
  · exact reads_map.mpr (reads_optional (reads_of_priority hf hpriority))
  · exact reads_map.mpr (reads_of_checked (hj.value hf) hf hargs)
  · exact reads_map.mpr (reads_optional (reads_of_loop hf hloop))

theorem sets_groupPassthrough (hj : (Node.map entries).IsJson)
    (hq : Quiet (groupPassthrough path (.map entries))) :
    Sets Keys.groupPassthrough setGroupPassthrough entries := by
  simp only [groupPassthrough, quiet_append] at hq
  obtain ⟨⟨-, hargs⟩, hloop⟩ := hq
  simp only [Keys.groupPassthrough, sets_cons]
  refine ⟨fun node hf _ => ?_, fun node hf _ => ?_, sets_nil⟩
  · exact reads_map.mpr (reads_of_checked (hj.value hf) hf hargs)
  · exact reads_map.mpr (reads_optional (reads_of_loop hf hloop))

theorem answersFor_groupPassthrough :
    AnswersFor groupPassthrough (shaped "Repr" groupPassthrough?) := by
  intro path node hj hq
  refine reads_shaped hj ?_
  match node, hj, hq with
  | .map entries, hj, hq => exact (sets_groupPassthrough hj hq).isSome_itemRecord hj {}
  | .str args, _, _ => rfl
  | .null, _, hq | .bool _, _, hq | .int _, _, hq | .float _, _, hq | .seq _, _, hq
  | .tagged _ _, _, hq => cases (quiet_singleton _).mp hq

theorem reads_of_families {node : Node} (hj : node.IsJson) (hf : find? "ipv" entries = some node)
    (h : Quiet (families path entries)) : Reads (shaped "OneOrMany" families? node) := by
  refine reads_shaped hj ?_
  rw [families, hf] at h
  by_cases hseq : ∃ nodes, node = .seq nodes
  · obtain ⟨nodes, rfl⟩ := hseq
    have hscalars : (scalars? (.seq nodes)).isSome := by
      refine isSome_scalars? fun n hn => ?_
      obtain ⟨place, hplace⟩ := quiet_items h n hn
      exact isSome_of_quiet _ (f := ⟨place, .familyShape⟩) rfl hplace
    simp [families?, hscalars]
  · have hfamily : Quiet (directFamily path entries) := by
      cases node with
      | seq nodes => exact absurd ⟨nodes, rfl⟩ hseq
      | _ => exact h
    have hs := isSome_of_scalarNode (quiet_field hf hfamily)
    rw [← isSome_scalarText?] at hs
    simp [families?, hs]

theorem sets_ruleGroup (hj : (Node.map entries).IsJson)
    (hq : Quiet (ruleGroup path entries)) : Sets Keys.ruleGroup setRuleGroup entries := by
  simp only [ruleGroup, quiet_append] at hq
  obtain ⟨⟨⟨⟨⟨-, hscalars⟩, hpriority⟩, hfamilies⟩, hrules⟩, hpassthroughs⟩ := hq
  have hrule : AnswersFor (mapping "rule group rule" groupRule)
      (record .plain "RuleGroupRule" Keys.groupRule setGroupRule {}) :=
    answersFor_mapping fun _ _ hj hq => sets_groupRule hj hq
  simp only [Keys.ruleGroup, sets_cons]
  refine ⟨fun node hf _ => ?_, fun node hf _ => ?_, fun node hf _ => ?_, fun node hf _ => ?_,
    fun node hf _ => ?_, fun node hf _ => ?_, sets_nil⟩
  · exact reads_map.mpr (reads_of_families (hj.value hf) hf hfamilies)
  · exact reads_map.mpr (reads_of_scalars (hj.value hf) (by decide) hf hscalars)
  · exact reads_map.mpr (reads_of_scalars (hj.value hf) (by decide) hf hscalars)
  · exact reads_map.mpr (reads_optional (reads_of_priority hf hpriority))
  · exact reads_map.mpr (reads_of_list hrule (hj.value hf) hf hrules)
  · exact reads_map.mpr
      (reads_of_list answersFor_groupPassthrough (hj.value hf) hf hpassthroughs)

theorem sets_direct (hj : (Node.map entries).IsJson)
    (hq : Quiet (direct path entries)) : Sets Keys.direct setDirect entries := by
  simp only [direct, quiet_append] at hq
  obtain ⟨⟨⟨⟨-, hchains⟩, hrules⟩, hpassthroughs⟩, hgroups⟩ := hq
  simp only [Keys.direct, sets_cons]
  refine ⟨fun node hf _ => ?_, fun node hf _ => ?_, fun node hf _ => ?_, fun node hf _ => ?_,
    sets_nil⟩
  · exact reads_map.mpr (reads_of_list
      (answersFor_mapping fun _ _ hj hq => sets_directChain hj hq) (hj.value hf) hf hchains)
  · exact reads_map.mpr (reads_of_list
      (answersFor_mapping fun _ _ hj hq => sets_directRule hj hq) (hj.value hf) hf hrules)
  · exact reads_map.mpr (reads_of_list
      (answersFor_mapping fun _ _ hj hq => sets_passthrough hj hq) (hj.value hf) hf hpassthroughs)
  · exact reads_map.mpr (reads_of_list
      (answersFor_mapping fun _ _ hj hq => sets_ruleGroup hj hq) (hj.value hf) hf hgroups)

end

/-! ## Documents -/

theorem eq_true_of_quiet {b : Bool} {f : Finding} (hf : f.issue.isWarning = false)
    (h : Quiet (if b then [] else [f])) : b = true := by
  cases b with
  | true => rfl
  | false =>
    rw [(quiet_singleton f).mp h] at hf
    cases hf

theorem reads_of_variableEntry {name : String} {node : Node} (hj : node.IsJson)
    (h : Quiet (variableEntry (.str name) node)) : Reads (variableOf node) := by
  refine reads_shaped hj ?_
  obtain ⟨-, hshape⟩ := (quiet_append _ _).mp h
  have hok := eq_true_of_quiet rfl hshape
  by_cases hseq : ∃ nodes, node = .seq nodes
  · obtain ⟨nodes, rfl⟩ := hseq
    have hscalars : (scalars? (.seq nodes)).isSome := isSome_scalars? (List.all_eq_true.mp hok)
    simp [templateValue?, hscalars]
  · have hs : node.scalarText?.isSome := by
      cases node with
      | seq nodes => exact absurd ⟨nodes, rfl⟩ hseq
      | _ => exact hok
    rw [← isSome_scalarText?] at hs
    simp [templateValue?, hs]

theorem answersFor_variables :
    AnswersFor (mapping "variables" fun _ inner => inner.flatMap fun (k, v) => variableEntry k v)
      (namedMap variableOf) := by
  intro path node hj hq
  match node, hj, hq with
  | .map entries, hj, hq =>
    obtain ⟨fields, rfl, -, each⟩ := hj.fields
    refine reads_namedMap hj fun entry hentry => ?_
    obtain ⟨field, hfield, rfl⟩ := List.mem_map.mp hentry
    exact reads_of_variableEntry (each field hfield) (quiet_flatMap.mp hq _ hentry)
  | .null, _, hq | .bool _, _, hq | .int _, _, hq | .float _, _, hq | .str _, _, hq
  | .seq _, _, hq | .tagged _ _, _, hq => cases (quiet_singleton _).mp hq

theorem reads_of_zoneEntry {name : String} {node : Node} (hj : node.IsJson)
    (h : Quiet (zoneEntry (.str name) node)) : Reads (Decode.optional Decode.zone node) := by
  have hzone : AnswersFor (mapping "zone" zone) Decode.zone :=
    answersFor_mapping fun _ _ hj hq => sets_zone hj hq
  cases node with
  | null => exact reads_ok _
  | tagged tag value => cases hj
  | _ => exact hzone.optional _ _ hj h

theorem answersFor_zones : AnswersFor zones Decode.zones := by
  intro path node hj hq
  refine reads_map.mpr ?_
  match node, hj, hq with
  | .map entries, hj, hq =>
    obtain ⟨fields, rfl, -, each⟩ := hj.fields
    refine reads_namedMap hj fun entry hentry => ?_
    obtain ⟨field, hfield, rfl⟩ := List.mem_map.mp hentry
    exact reads_of_zoneEntry (each field hfield) (quiet_flatMap.mp hq _ hentry)
  | .null, _, _ => exact reads_ok _
  | .bool _, _, hq | .int _, _, hq | .float _, _, hq | .str _, _, hq
  | .seq _, _, hq => cases (quiet_singleton _).mp hq

theorem sets_config {entries : Node.Entries} (hj : (Node.map entries).IsJson)
    (hq : Quiet (ofDocument (.map entries))) : Sets Keys.topLevel setConfig entries := by
  simp only [ofDocument, quiet_append] at hq
  obtain ⟨⟨⟨-, hvariables⟩, hzones⟩, hdirect⟩ := hq
  have hblock : AnswersFor (mapping "direct" direct)
      (record .plain "Direct" Keys.direct setDirect {}) :=
    answersFor_mapping fun _ _ hj hq => sets_direct hj hq
  simp only [Keys.topLevel, sets_cons]
  refine ⟨fun node hf _ => ?_, fun node hf _ => ?_, fun node hf _ => ?_, sets_nil⟩
  · exact reads_map.mpr (answersFor_variables _ node (hj.value hf) (quiet_field hf hvariables))
  · exact reads_map.mpr (answersFor_zones _ node (hj.value hf) (quiet_field hf hzones))
  · exact reads_map.mpr (hblock.optional _ node (hj.value hf) (quiet_field hf hdirect))

end Finding

/-- **A JSON document in which the checker finds no error is read as a configuration.** -/
theorem Config.ofDocument_of_checked {document : Node} (hj : document.IsJson)
    (hok : (Validation.ofDocument document).errors = []) :
    ∃ config, Config.ofDocument document = .ok config := by
  have hq : Finding.Quiet (Finding.ofDocument document) := Finding.quiet_of_errors_eq_nil hok
  have hreads : Reads (Decode.config document) := by
    cases document with
    | map entries => exact (Finding.sets_config hj hq).reads_record hj .plain "Config" {}
    | _ => cases (Finding.quiet_singleton _).mp hq
  obtain ⟨config, hconfig⟩ := hreads
  refine ⟨config, ?_⟩
  rw [Config.ofDocument, hconfig]
  rfl

/-- A rule without an action draws a warning only, and its priority is a text. -/
theorem Config.ofDocument_of_checked_warned :
    ∃ config, Config.ofDocument (.map (ofFields
      [("zones", .map (ofFields [("public", .map (ofFields
          [("ports", .seq [.int 8080, .map (ofFields [("port", .str "53"), ("protocol", .str "udp")])]),
            ("rich_rules", .seq [.map (ofFields [("source", .str "10.0.0.0/8")])])]))])),
        ("direct", .map (ofFields [("rules", .seq [.map (ofFields
          [("ipv", .str "ipv4"), ("table", .str "filter"), ("chain", .str "INPUT"),
            ("priority", .str " -3 "), ("args", .str "-j DROP")])])]))])) = .ok config := by
  refine Config.ofDocument_of_checked ?_ (by decide +kernel)
  repeat' first
    | exact .str _
    | exact .int _
    | refine .seq ?_
    | refine .map (by decide) ?_
    | refine List.forall_mem_cons.mpr ⟨?_, ?_⟩
    | exact List.forall_mem_nil _

end ZoneScript
