import ZoneScript.Proofs.Tokens
import ZoneScript.Template.Remark

/-!
# Expansions without warnings

Every token of a text is a scalar variable's, or there is a remark on it. So an expansion that has
nothing to remark replaces all of them, and a token can be left only where a value was put in: values
are not looked at again.
-/

namespace ZoneScript

open Text

namespace Template

/-! ## Texts that are mapped -/

/-- Parts whose texts are the old ones with `f` applied to them. -/
class LawfulTexts (α : Type) [HasTexts α] : Prop where
  texts_mapTexts (f : String → String) (item : α) : texts (mapTexts f item) = (texts item).map f

theorem textsOf_map {α : Type} [HasTexts α] [LawfulTexts α] (f : String → String) (items : List α) :
    textsOf (items.map (mapTexts f)) = (textsOf items).map f := by
  induction items with
  | nil => rfl
  | cons item items ih =>
    simp only [textsOf, List.map_cons, List.flatMap_cons, List.map_append,
      LawfulTexts.texts_mapTexts] at ih ⊢
    rw [ih]

theorem toList_map (f : String → String) (text : Option String) :
    (text.map f).toList = text.toList.map f := by
  cases text <;> rfl

theorem textsOf_toList_map {α : Type} [HasTexts α] [LawfulTexts α] (f : String → String)
    (item : Option α) : textsOf (item.map (mapTexts f)).toList = (textsOf item.toList).map f := by
  cases item with
  | none => rfl
  | some item => exact textsOf_map f [item]

instance : LawfulTexts ValueItem := ⟨fun _ _ => rfl⟩

instance : LawfulTexts ForwardPort where
  texts_mapTexts f item := by simp [texts, mapTexts, toList_map]

instance : LawfulTexts RichForwardPort where
  texts_mapTexts f item := by simp [texts, mapTexts, toList_map]

instance : LawfulTexts RichSourcePort := ⟨fun _ _ => rfl⟩

instance : LawfulTexts RichLog where
  texts_mapTexts f log := by simp [texts, mapTexts, toList_map]

instance : LawfulTexts RichRule where
  texts_mapTexts f rule := by
    show _ ++ textsOf (rule.forwardPort.map (mapTexts f)).toList
      ++ textsOf (rule.sourcePort.map (mapTexts f)).toList ++ textsOf (rule.log.map (mapTexts f)).toList
      ++ _ = _
    rw [textsOf_toList_map, textsOf_toList_map, textsOf_toList_map]
    simp [texts, mapTexts, toList_map]

instance : LawfulTexts DirectChain := ⟨fun _ _ => rfl⟩

instance : LawfulTexts DirectRule := ⟨fun _ _ => rfl⟩

instance : LawfulTexts Passthrough := ⟨fun _ _ => rfl⟩

instance : LawfulTexts Direct where
  texts_mapTexts f direct := by
    show textsOf _ ++ textsOf _ ++ textsOf _ = List.map f (textsOf _ ++ textsOf _ ++ textsOf _)
    rw [List.map_append, List.map_append, ← textsOf_map, ← textsOf_map, ← textsOf_map]
    rfl

/-! ## Ports and their sides -/

/-- What is left of a port that came with its protocol: a side of its first slash. -/
inductive IsSide (whole : String) : String → Prop
  | port {port protocol : List Char} (h : splitFirst '/' whole.toList = some (port, protocol)) :
      IsSide whole (.ofList port)
  | protocol {port protocol : List Char} (h : splitFirst '/' whole.toList = some (port, protocol)) :
      IsSide whole (.ofList protocol)

theorem IsSide.subset {whole text : String} (h : IsSide whole text) : text.toList ⊆ whole.toList := by
  cases h with
  | port h =>
    rw [String.toList_ofList, (splitFirst_eq_some.mp h).1]
    exact List.subset_append_left _ _
  | protocol h =>
    rw [String.toList_ofList, (splitFirst_eq_some.mp h).1]
    exact List.subset_append_of_subset_right _ (List.subset_cons_self _ _)

/-- Each of the second texts is what `f` makes of one of the first, or a side of that if it is one of the
ports. -/
def Sides (f : String → String) (ports sources texts : List String) : Prop :=
  ∀ text ∈ texts, ∃ source ∈ sources, text = f source ∨ source ∈ ports ∧ IsSide (f source) text

theorem sides_map (f : String → String) (ports sources : List String) :
    Sides f ports sources (sources.map f) := by
  intro text htext
  obtain ⟨source, hsource, rfl⟩ := List.mem_map.mp htext
  exact ⟨source, hsource, .inl rfl⟩

theorem sides_of_lawful {α : Type} [HasTexts α] [LawfulTexts α] (f : String → String)
    (ports : List String) (items : List α) :
    Sides f ports (textsOf items) (textsOf (items.map (mapTexts f))) := by
  rw [textsOf_map]
  exact sides_map f ports (textsOf items)

theorem Sides.append {f : String → String} {ports sources texts others more : List String}
    (h : Sides f ports sources texts) (k : Sides f ports others more) :
    Sides f ports (sources ++ others) (texts ++ more) := by
  intro text htext
  rcases List.mem_append.mp htext with htext | htext
  · obtain ⟨source, hsource, hside⟩ := h text htext
    exact ⟨source, List.mem_append_left _ hsource, hside⟩
  · obtain ⟨source, hsource, hside⟩ := k text htext
    exact ⟨source, List.mem_append_right _ hsource, hside⟩

theorem sides_splitPort (f : String → String) {ports : List String} {item : PortItem}
    (hport : item.port ∈ ports) : Sides f ports (texts item) (texts (mapTexts f item)) := by
  show Sides f ports [item.port, item.protocol] (texts (PortItem.splitPort _))
  rw [PortItem.splitPort]
  split
  · rename_i hcut
    intro text htext
    rcases List.mem_cons.mp htext with rfl | htext
    · exact ⟨item.port, List.mem_cons_self, .inr ⟨hport, .port hcut⟩⟩
    · rw [List.mem_singleton.mp htext]
      exact ⟨item.port, List.mem_cons_self, .inr ⟨hport, .protocol hcut⟩⟩
  · exact sides_map f ports [item.port, item.protocol]

theorem sides_ports (f : String → String) {ports : List String} {items : List PortItem}
    (hports : items.map (·.port) ⊆ ports) :
    Sides f ports (textsOf items) (textsOf (items.map (mapTexts f))) := by
  induction items with
  | nil => exact sides_map f ports []
  | cons item items ih =>
    obtain ⟨hport, hports⟩ := List.cons_subset.mp hports
    exact (sides_splitPort f hport).append (ih hports)

/-- The texts of the ports of a zone. -/
def zonePorts (zone : Zone) : List String :=
  (zone.ports ++ zone.sourcePorts).map (·.port)

theorem sides_zone (f : String → String) {ports : List String} {zone : Zone}
    (hports : zonePorts zone ⊆ ports) : Sides f ports (texts zone) (texts (mapTexts f zone)) := by
  rw [zonePorts, List.map_append, List.append_subset] at hports
  have htarget : Sides f ports zone.target.toList (zone.target.map f).toList :=
    toList_map f zone.target ▸ sides_map f ports zone.target.toList
  exact htarget.append (sides_of_lawful f ports zone.interfaces)
    |>.append (sides_of_lawful f ports zone.sources)
    |>.append (sides_of_lawful f ports zone.services)
    |>.append (sides_ports f hports.1)
    |>.append (sides_of_lawful f ports zone.protocols)
    |>.append (sides_ports f hports.2)
    |>.append (sides_of_lawful f ports zone.richRules)
    |>.append (sides_of_lawful f ports zone.forwardPorts)
    |>.append (sides_of_lawful f ports zone.icmpBlocks)

/-! ## All texts -/

/-- The texts in some zones and in a direct block. -/
def allTexts (zones : List (String × Zone)) (direct : Option Direct) : List String :=
  zones.flatMap (fun entry => texts entry.2) ++ direct.toList.flatMap texts

/-- The texts of a configuration with its rule groups and loops written out. -/
def sourceTexts (config : Config) : List String :=
  allTexts (unrolledZones config) (unrolledDirect config)

/-- Those of them that are ports of a zone. -/
def portTexts (config : Config) : List String :=
  (unrolledZones config).flatMap fun entry => zonePorts entry.2

/-- The texts that an expansion comes to. -/
def expandedTexts (config : Config) : List String :=
  allTexts config.expand.zones config.expand.direct

theorem sides_expandedTexts (config : Config) :
    Sides (substitute (resolve config.vars)) (portTexts config) (sourceTexts config)
      (expandedTexts config) := by
  intro text htext
  rcases List.mem_append.mp htext with htext | htext
  · obtain ⟨entry, hentry, htext⟩ := List.mem_flatMap.mp htext
    obtain ⟨e, he, rfl⟩ := List.mem_map.mp hentry
    have hports : zonePorts e.2 ⊆ portTexts config := fun port hport => List.mem_flatMap.mpr ⟨e, he, hport⟩
    obtain ⟨source, hsource, hside⟩ := sides_zone _ hports text htext
    exact ⟨source, List.mem_append_left _ (List.mem_flatMap.mpr ⟨e, he, hsource⟩), hside⟩
  · obtain ⟨direct, hdirect, htext⟩ := List.mem_flatMap.mp htext
    obtain ⟨d, hd, rfl⟩ := Option.map_eq_some_iff.mp
      (Option.mem_filter_iff.mp (Option.mem_toList.mp hdirect)).1
    rw [LawfulTexts.texts_mapTexts] at htext
    obtain ⟨source, hsource, hside⟩ := sides_map _ (portTexts config) _ text htext
    have hmem := List.mem_flatMap.mpr ⟨d, Option.mem_toList.mpr hd, hsource⟩
    exact ⟨source, List.mem_append_right _ hmem, hside⟩

/-! ## Remarks -/

namespace Remark

theorem isRepeated_nil (remark : Remark) : remark.isRepeated [] = false := by
  cases remark <;> rfl

theorem withoutRepeated_eq_nil {remarks : List Remark} :
    withoutRepeated [] remarks = [] ↔ remarks = [] := by
  cases remarks with
  | nil => simp [withoutRepeated]
  | cons remark remarks => simp [withoutRepeated, isRepeated_nil]

theorem scalar_of_ofText {vars : List (String × Variable)} {path text : String}
    (h : ofText vars path text = []) :
    ∀ name ∈ tokenNames text, ∃ value, Ordered.find? name vars = some (.scalar value) := by
  intro name hname
  simp only [ofText, List.append_eq_nil_iff, List.map_eq_nil_iff, List.filter_eq_nil_iff,
    ite_eq_right_iff, List.contains_iff_mem, List.mem_filter] at h
  obtain ⟨⟨⟨hundefined, hlist⟩, hitem⟩, hany⟩ := h
  cases hfind : Ordered.find? name vars with
  | none =>
    have hmem : name ∈ tokenNames text ∧ (Ordered.find? name vars).isNone = true :=
      ⟨hname, by simp [hfind]⟩
    -- a name that is not defined is remarked on by itself, or as one of the two reserved ones
    have hreserved : isReserved name = true := by
      by_contra hname
      exact hundefined name hmem (by simpa using hname)
    simp only [isReserved, Bool.or_eq_true, beq_iff_eq] at hreserved
    rcases hreserved with rfl | rfl
    · cases hitem hmem
    · cases hany hmem
  | some value =>
    cases value with
    | scalar value => exact ⟨value, rfl⟩
    | list items => exact absurd (by simp [hfind, Variable.list?]) (hlist name hname)

end Remark

theorem scalar_of_silent {config : Config} (h : config.expansionWarnings = []) :
    ∀ source ∈ sourceTexts config, ∀ name ∈ tokenNames source,
      ∃ value, Ordered.find? name (resolve config.vars) = some (.scalar value) := by
  have hall := Remark.withoutRepeated_eq_nil.mp (List.map_eq_nil_iff.mp h)
  simp only [Remark.all, List.append_eq_nil_iff, List.flatMap_eq_nil_iff, Remark.ofTexts] at hall
  obtain ⟨⟨-, hzones⟩, hdirect⟩ := hall
  intro source hsource
  rcases List.mem_append.mp hsource with hsource | hsource
  · obtain ⟨entry, hentry, hsource⟩ := List.mem_flatMap.mp hsource
    exact Remark.scalar_of_ofText (hzones entry hentry source hsource)
  · obtain ⟨direct, hd, hsource⟩ := List.mem_flatMap.mp hsource
    exact Remark.scalar_of_ofText (hdirect direct hd source hsource)

end Template

open Template

/-- **Silence.** After an expansion without warnings, each text is one of the configuration, with its
rule groups and loops written out, in which each token is replaced by the value of the scalar variable
that it names; a port may be cut at its first slash. Nothing between the tokens is one, so that one can
only be left where a value was put in, and none is left if no value and no text between tokens has an
opening brace. -/
theorem Config.filled_of_silent {config : Config} (h : config.expansionWarnings = []) :
    (∀ text ∈ expandedTexts config, ∃ source ∈ sourceTexts config, ∃ filled : String,
      Filled (resolve config.vars) source.toList filled.toList ∧
        (text = filled ∨ source ∈ portTexts config ∧ IsSide filled text)) ∧
    ((∀ entry ∈ resolve config.vars, ∀ value ∈ entry.2.scalar?, '\x7b' ∉ value.toList) →
      (∀ source ∈ sourceTexts config, .char '\x7b' ∉ Template.pieces source.toList) →
      ∀ text ∈ expandedTexts config, ¬ HasToken text.toList) := by
  have hscalar := scalar_of_silent h
  constructor
  · intro text htext
    obtain ⟨source, hsource, hside⟩ := sides_expandedTexts config text htext
    exact ⟨source, hsource, _, filled_substitute (hscalar source hsource), hside⟩
  · intro hvalues hsources text htext htoken
    obtain ⟨source, hsource, hside⟩ := sides_expandedTexts config text htext
    have hbrace : '\x7b' ∈ (substitute (resolve config.vars) source).toList := by
      rcases hside with rfl | ⟨-, hside⟩
      · exact htoken.mem
      · exact hside.subset htoken.mem
    rcases mem_substitute hbrace (hscalar source hsource) with hpiece | ⟨name, value, hvalue, hmem⟩
    · exact hsources source hsource hpiece
    · exact hvalues _ (Ordered.mem_of_find? hvalue) value rfl hmem

/-- A loop value that brings its protocol along, and a token with blanks whose value had one itself. -/
theorem Config.filled_of_silent_loop :
    let port : PortItem := { port := "\x7b\x7bitem\x7d\x7d", protocol := "tcp", loop := some "web" }
    let config : Config :=
      { vars := [("web", .list ["80", "443/udp"]), ("to", .scalar "\x7b\x7bend\x7d\x7d-a"),
          ("end", .scalar "b")]
        zones := [("a", { target := some "\x7b\x7b to \x7d\x7d", ports := [port] })] }
    expandedTexts config = ["b-a", "80", "tcp", "443", "udp"] ∧
      ∀ text ∈ expandedTexts config, ¬ HasToken text.toList := by
  intro port config
  obtain ⟨-, hclean⟩ := filled_of_silent (by decide +kernel : config.expansionWarnings = [])
  exact ⟨by decide +kernel, hclean (by decide +kernel) (by decide +kernel)⟩

/-- A variable refers to a second one and that one to a third. There is nothing to remark on the token
that the value of the second one brings along. -/
theorem Config.token_of_silent :
    let config : Config :=
      { vars := [("a", .scalar "\x7b\x7bb\x7d\x7d"), ("b", .scalar "\x7b\x7bc\x7d\x7d"),
          ("c", .scalar "final")]
        zones := [("public", { services := [{ value := "\x7b\x7ba\x7d\x7d" }] })] }
    config.expansionWarnings = [] ∧ ∃ text ∈ expandedTexts config, HasToken text.toList := by
  intro config
  have htoken : IsToken "\x7b\x7bc\x7d\x7d".toList ['c'] :=
    @IsToken.spaced [] ['c'] [] (by simp) (by decide) (by simp)
  exact ⟨by decide +kernel, "\x7b\x7bc\x7d\x7d", by decide +kernel, _, _, htoken, List.infix_rfl⟩

end ZoneScript
