import ZoneScript.Proofs.ReportedKeys

/-!
# Unknown keys

The checker reports each key that its catalogue does not have, and the document still means something:
it is read as it would be read without these entries. That holds where the reader passes over the
entries; a number as a key it does not always pass over.
-/

namespace ZoneScript

open Node Decode

/-! ## Reading without the unknown entries -/

namespace Shape

section

variable {α β : Type} {shape : Shape} {style : Style} {keys : List String}

theorem Respects.of_text {read other : Node → β} (h : Respects shape style other)
    (hread : ∀ node, (∀ s, node ≠ .str s) → read node = other node) : Respects shape style read := by
  intro node hnode
  cases node with
  | seq nodes =>
    have hother := h _ hnode
    obtain ⟨rest, hrest⟩ := prune_seq shape nodes
    rw [hrest] at hother ⊢
    rw [hread _ (by simp), hother, hread _ (by simp)]
  | map entries =>
    have hother := h _ hnode
    obtain ⟨rest, hrest⟩ := prune_map shape entries
    rw [hrest] at hother ⊢
    rw [hread _ (by simp), hother, hread _ (by simp)]
  | null | bool | int | float | str | tagged => rw [prune_eq_self (by simp) (by simp)]

theorem respects_flatItem (set : String → Node → α → Decode.Result α) (empty : α) :
    Respects (flat keys) .loose (itemRecord keys set empty) :=
  respects_itemRecord (fun _ _ _ => respects_leaf .loose _) empty

theorem respects_scalarOr (ofText : String → α) (set : String → Node → α → Decode.Result α)
    (empty : α) : Respects (.item (flat keys)) style (shaped "Repr" fun node =>
      ((Decode.scalarText? node).map ofText).or (itemRecord keys set empty node)) := by
  refine Respects.shaped (fun node hnode => ?_) "Repr"
  have hscalar : Decode.scalarText? ((flat keys).prune node) = Decode.scalarText? node :=
    respects_scalarText? node hnode
  rw [hscalar, respects_flatItem set empty node hnode]

end

theorem respects_forwardPort (style : Style) :
    Respects (.item (flat Keys.forwardPort)) style Decode.forwardPort :=
  ((respects_flatItem setForwardPort _).shaped "Repr").of_text fun node hnode => by
    cases node <;> first | rfl | exact absurd rfl (hnode _)

theorem respects_groupPassthrough (style : Style) :
    Respects (.item (flat Keys.groupPassthrough)) style (shaped "Repr" groupPassthrough?) :=
  ((respects_flatItem setGroupPassthrough {}).of_text fun node hnode => by
    cases node <;> first | rfl | exact absurd rfl (hnode _)).shaped "Repr"

theorem respects_setRichRule (key : String) (rule : RichRule) :
    Respects (ruleClause key) .loose fun node => setRichRule .loose key node rule := by
  unfold ruleClause
  split
  · exact (respects_flat .loose "RichLog" Keys.richLog setRichLog {}).optional.map _
  · exact (respects_flat .loose "RichForwardPort" Keys.richForwardPort setRichForwardPort
      {}).optional.map _
  · exact (respects_flat .loose "RichPortSpec" Keys.richSourcePort setRichSourcePort {}).optional.map _
  · exact respects_leaf _ _

theorem respects_richRule (style : Style) :
    Respects (.item richRule) style (shaped "Repr" richRuleItem?) := by
  have hrecord : Respects richRule .loose (Decode.richRule .loose) :=
    respects_record (fun key _ rule => respects_setRichRule key rule) "RichRule" {}
  refine Respects.shaped (Respects.of_text (hrecord.comp Except.toOption) fun node hnode => ?_) "Repr"
  cases node <;> first | rfl | exact absurd rfl (hnode _)

theorem respects_setZone (f : ZoneField) (zone : Zone) :
    Respects (zoneField f) .plain fun node => setZone f.key node zone := by
  have hvalue : Respects (.item (flat Keys.valueItem)) .plain (shaped "Repr" valueItem?) :=
    respects_scalarOr (fun s => { value := s }) setValueItem _
  have hport : Respects (.item (flat Keys.port)) .plain (shaped "Repr" portItem?) :=
    respects_scalarOr PortItem.ofSpec setPortItem _
  cases f with
  | target | forward | masquerade | icmpBlockInversion => exact respects_leaf _ _
  | interfaces | sources | services | protocols | icmpBlocks => exact hvalue.list.map _
  | ports | sourcePorts => exact hport.list.map _
  | forwardPorts => exact (respects_forwardPort .plain).list.map _
  | richRules => exact (respects_richRule .plain).list.map _

theorem respects_zone : Respects zone .plain Decode.zone := by
  refine respects_record (fun key hkey zone => ?_) "Zone" ({} : Zone)
  obtain ⟨f, -, rfl⟩ := List.mem_map.mp hkey
  rw [ZoneField.ofKey?_key]
  exact respects_setZone f zone

theorem respects_setRuleGroup (key : String) (group : RuleGroup) :
    Respects (groupMembers key) .plain fun node => setRuleGroup key node group := by
  unfold groupMembers
  split
  · exact (respects_flat .plain "RuleGroupRule" Keys.groupRule setGroupRule {}).list.map _
  · exact (respects_groupPassthrough .plain).list.map _
  · exact respects_leaf _ _

theorem respects_setDirect (key : String) (direct : Direct) :
    Respects (directList key) .plain fun node => setDirect key node direct := by
  have hgroup : Respects ruleGroup .plain
      (Decode.record .plain "RuleGroup" Keys.ruleGroup setRuleGroup {}) :=
    respects_record (fun key _ group => respects_setRuleGroup key group) "RuleGroup" {}
  unfold directList
  split
  · exact (respects_flat .plain "DirectChain" Keys.directChain setDirectChain {}).list.map _
  · exact (respects_flat .plain "DirectRule" Keys.directRule setDirectRule {}).list.map _
  · exact (respects_flat .plain "Passthrough" Keys.passthrough setPassthrough {}).list.map _
  · exact hgroup.list.map _
  · exact respects_leaf _ _

theorem respects_setConfig (key : String) (config : Config) :
    Respects (topLevel key) .plain fun node => setConfig key node config := by
  have hdirect : Respects direct .plain (Decode.record .plain "Direct" Keys.direct setDirect {}) :=
    respects_record (fun key _ direct => respects_setDirect key direct) "Direct" {}
  unfold topLevel
  split
  · exact (respects_zone.optional.namedMap.map _).map _
  · exact hdirect.optional.map _
  · exact respects_leaf _ _

theorem respects_config : Respects document .plain Decode.config :=
  respects_record (fun key _ config => respects_setConfig key config) "Config" {}

end Shape

/-! ## Documents -/

/-- **Unknown keys.** What the checker says about unknown keys is about the entries that the catalogues
do not know, and where there is no error it is said of each of them. Without these entries it finds no
unknown key, and the document is read as before, with the same configuration or the same failure, if
each such key is a text or, in an item that may be written in several ways, a number behind the last
position, with no tag in the value. -/
theorem Config.ofDocument_prune (document : Node) :
    Finding.AreAbout (Shape.document.unknown .plain document) (Finding.ofDocument document) ∧
      ((Validation.ofDocument document).errors = [] → Shape.document.HasDistinctKeys document →
        ∀ entry ∈ Shape.document.unknown .plain document,
          entry.IsReported (Finding.ofDocument document)) ∧
      Finding.AllKnown (Finding.ofDocument (Shape.document.prune document)) ∧
      ((∀ entry ∈ Shape.document.unknown .plain document, entry.isIgnored = true) →
        Config.ofDocument (Shape.document.prune document) = Config.ofDocument document) := by
  refine ⟨Finding.areAbout_ofDocument document, fun herrors hdistinct => ?_,
    Finding.allKnown_ofDocument_prune document, fun hignored => ?_⟩
  · exact Finding.isReported_ofDocument (Finding.quiet_of_errors_eq_nil herrors) hdistinct
  · rw [Config.ofDocument, Config.ofDocument, Shape.respects_config document hignored]

/-- Misspelt keys in a zone, with a tagged value, and in an item, where a number stands as well. -/
theorem Config.ofDocument_prune_misspelt :
    let entry (key : String) (node : Node) : Node × Node := (.str key, node)
    let port : Node := .map [entry "port" (.int 80), (.int 7, .null), entry "prot" (.str "udp")]
    let zone : Node := .map
      [entry "taget" (.tagged "t" (.str "DROP")), entry "ports" (.seq [port])]
    let document : Node := .map [entry "zones" (.map [entry "public" zone])]
    (Shape.document.unknown .plain document).length = 3 ∧
      (∀ entry ∈ Shape.document.unknown .plain document,
        entry.IsReported (Finding.ofDocument document)) ∧
      (Config.ofDocument document).toOption =
        some { zones := [("public", { ports := [{ port := "80", protocol := "tcp" }] })] } := by
  intro entry port zone document
  have herrors : (Validation.ofDocument document).errors = [] := by decide +kernel
  have hport : (Shape.flat Keys.port).HasDistinctKeys port := by
    simp [port, entry, Shape.flat, Shape.HasDistinctKeys]
  have hzone : Shape.zone.HasDistinctKeys zone := by
    refine ⟨by simp [entry], fun name node hmem => ?_⟩
    rcases List.mem_cons.mp hmem with heq | hmem
    · obtain ⟨⟨⟩, rfl⟩ := Prod.mk.inj heq
      trivial
    · obtain ⟨⟨⟩, rfl⟩ := Prod.mk.inj (List.mem_singleton.mp hmem)
      exact List.forall_mem_singleton.mpr hport
  have hdistinct : Shape.document.HasDistinctKeys document := by
    simpa [document, entry, Shape.document, Shape.topLevel, Shape.HasDistinctKeys] using hzone
  have hpruned : (Config.ofDocument (Shape.document.prune document)).toOption =
      some { zones := [("public", { ports := [{ port := "80", protocol := "tcp" }] })] } := by
    decide +kernel
  obtain ⟨-, hreported, -, hsame⟩ := Config.ofDocument_prune document
  rw [hsame (by decide +kernel)] at hpruned
  exact ⟨by decide +kernel, hreported herrors hdistinct, hpruned⟩

/-- A number as a key makes a zone unreadable and names a field of a port, and a tag under an unknown
key makes its item unreadable, though none of them is an error. -/
theorem Config.unknown_key_counts :
    let entry (key : String) (node : Node) : Node × Node := (.str key, node)
    let document (zone : Node) : Node := .map [entry "zones" (.map [entry "public" zone])]
    let numbered : Node := document (.map [(.int 0, .str "x"), entry "services" (.seq [.str "ssh"])])
    let placed : Node := document (.map [entry "ports" (.seq
      [.map [entry "port" (.int 80), (.int 1, .str "udp")]])])
    let tagged : Node := document (.map [entry "services" (.seq
      [.map [entry "value" (.str "ssh"), entry "note" (.tagged "t" (.str "x"))]])])
    ((Validation.ofDocument numbered).errors = [] ∧
        (Config.ofDocument (Shape.document.prune numbered)).toOption =
          some { zones := [("public", { services := [{ value := "ssh" }] })] } ∧
        (Config.ofDocument numbered).toOption = none) ∧
      ((Validation.ofDocument placed).errors = [] ∧
        (Config.ofDocument (Shape.document.prune placed)).toOption =
          some { zones := [("public", { ports := [{ port := "80", protocol := "tcp" }] })] } ∧
        (Config.ofDocument placed).toOption =
          some { zones := [("public", { ports := [{ port := "80", protocol := "udp" }] })] }) ∧
      (Validation.ofDocument tagged).errors = [] ∧
        (Config.ofDocument (Shape.document.prune tagged)).toOption =
          some { zones := [("public", { services := [{ value := "ssh" }] })] } ∧
        (Config.ofDocument tagged).toOption = none := by
  decide +kernel

end ZoneScript
