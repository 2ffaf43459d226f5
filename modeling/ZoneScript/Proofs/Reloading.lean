import ZoneScript.CommandLine.Run
import ZoneScript.Proofs.ConfigTexts
import ZoneScript.Proofs.ConfigTrees
import ZoneScript.Proofs.JsonTexts

/-!
# Configurations that are written and loaded

A configuration that is written as JSON and loaded again comes back with its texts as the reader of documents
takes them, if it comes back at all. That depends on its texts and names alone: the reader refuses some
characters that JSON leaves as they are, folds line breaks, and gives up long keys. A reader that knows JSON
alone finds every configuration again.
-/

namespace ZoneScript

open Yaml (IsKeyName IsReadable KeepsBreaks reread)

variable {config : Config}

/-! ## Other texts -/

theorem Config.IsProper.reworded (h : config.IsProper) (f : String → String) : (config.reworded f).IsProper where
  vars := by simpa [Config.reworded, Ordered.names_mapValues] using h.vars
  zones := by simpa [Config.reworded, Ordered.names_mapValues] using h.zones
  words := by
    intro changed hchanged
    obtain ⟨direct, hdirect, rfl⟩ := Option.map_eq_some_iff.mp hchanged
    obtain ⟨hrules, hgroups⟩ := h.words direct hdirect
    refine ⟨List.forall_mem_map.mpr hrules, List.forall_mem_map.mpr fun group hgroup => ?_⟩
    exact ⟨(hgroups group hgroup).priority, List.forall_mem_map.mpr (hgroups group hgroup).rules⟩

theorem Config.IsProper.read_document (h : config.IsProper) :
    Config.ofDocument config.toDocument = .ok config := by
  rw [Config.ofDocument, toDocument_eq, Decode.config, (describes_config h).record_eq]
  rfl

/-! ## Loading -/

namespace Config

/-- Nothing is lost to the JSON text itself. -/
theorem IsProper.read_json (h : config.IsProper) :
    ((Json.read? (config.serialize .json)).bind Json.node?).map Config.ofDocument = some (.ok config) := by
  have hplain := isPlain_toDocument h
  rw [toDocument_eq] at hplain
  rw [serialize, toDocument_eq, Json.node?_read?_render hplain, Option.map_some, ← toDocument_eq,
    h.read_document]

/-- The configuration that is found in the JSON text of a configuration. -/
def reload (config : Config) : Except Failure Config := do
  Config.ofDocument (← Yaml.load (config.serialize .json))

/-- The reader takes each text of a configuration, and finds each name that it gives to be a key. -/
structure IsLoadable (config : Config) : Prop where
  names : ∀ name ∈ config.givenNames, IsKeyName name
  texts : ∀ text ∈ config.toDocument.texts, IsReadable text

theorem isLoadable_iff (h : config.IsProper) : config.IsLoadable ↔ Yaml.IsLoadable config.toDocument := by
  have hnames := isKeyName_names_iff h
  constructor
  · intro hloads
    have hkeys := hnames.mpr hloads.names
    exact ⟨List.forall_mem_append.mpr ⟨fun name hname => (hkeys name hname).readable, hloads.texts⟩,
      fun name hname => (hkeys name hname).short⟩
  · intro hloads
    obtain ⟨hreadable, htexts⟩ := List.forall_mem_append.mp hloads.strings
    exact ⟨hnames.mp fun name hname => ⟨hreadable name hname, hloads.names name hname⟩, htexts⟩

theorem reload_eq_ok_iff (h : config.IsProper) {other : Config} :
    config.reload = .ok other ↔ config.IsLoadable ∧ other = config.reworded reread := by
  have hplain := isPlain_toDocument h
  have hread := (h.reworded reread).read_document
  rw [toDocument_eq] at hplain
  rw [← mapTexts_toDocument, toDocument_eq] at hread
  rw [isLoadable_iff h, reload, serialize, toDocument_eq]
  constructor
  · intro hreload
    cases hload : Yaml.load (Json.render (.map (Table.config config).written)) with
    | error failure =>
      rw [hload] at hreload
      cases hreload
    | ok node =>
      obtain ⟨hloads, rfl⟩ := (Yaml.load_render_iff hplain).mp hload
      rw [hload] at hreload
      exact ⟨hloads, Except.ok.inj (hreload.symm.trans hread)⟩
  · rintro ⟨hloads, rfl⟩
    rw [Yaml.load_render hplain hloads]
    exact hread

/-- **Reloading.** A configuration that is written as JSON is found there again exactly if all of its texts
are read, as themselves, and all names that it gives are found to be keys. -/
theorem reload_eq_self_iff (h : config.IsProper) :
    config.reload = .ok config ↔
      config.IsLoadable ∧ ∀ text ∈ config.toDocument.texts, KeepsBreaks text.toList := by
  rw [reload_eq_ok_iff h]
  refine and_congr_right fun _ => ?_
  simp only [← Yaml.reread_eq_iff]
  rw [← (isPlain_toDocument h).mapTexts_eq_iff, mapTexts_toDocument]
  constructor
  · intro heq
    rw [← heq]
  · intro heq
    -- the documents of the two are the same, and a document is read as the configuration it was written for
    have hread := (h.reworded reread).read_document
    rw [heq, h.read_document] at hread
    exact Except.ok.inj hread

/-- Texts that look like other scalars, with escapes, separators and marks of the notation, and the name that
is empty. -/
theorem reload_eq_self_iff_texts :
    let zone : Zone :=
      { target := some "", services := [{ value := "null" }, { value := "a\u2028b", loop := some "sites" }]
        richRules := [{ log := some { label := some "\t\"\\/\u0001" }, markSet := some "0x10" }] }
    let config : Config :=
      { vars := [("sites", .list ["007", " é ", "--- ", "\x7b\x7bx\x7d\x7d"])], zones := [("", zone), ("yes", {})]
        direct := some { rules := [{ ipv := "~", priority := -2147483648, args := "a: [b] #c" }] } }
    config.reload = .ok config := by
  intro zone config
  have h : config.IsProper :=
    { vars := by decide
      zones := by decide
      words := by
        rintro _ ⟨⟩
        exact ⟨by simp [IsWord]; decide, by simp⟩ }
  exact (reload_eq_self_iff h).mpr ⟨⟨by decide, by decide⟩, by decide⟩

/-- A next line comes back as a blank, and so does a separator with the blank before it as the separator alone.
A text with a delete character does not come back. -/
theorem reload_changes_texts :
    let offering (service : String) : Config := { zones := [("public", { services := [{ value := service }] })] }
    (offering "a\u0085b").reload = .ok (offering "a b") ∧
      (offering "a \u2028b").reload = .ok (offering "a\u2028b") ∧
        ∀ other, (offering "a\u007fb").reload ≠ .ok other := by
  intro offering
  have h (service : String) : (offering service).IsProper :=
    { vars := List.nodup_nil
      zones := by simp [offering, Ordered.names]
      words := nofun }
  refine ⟨(reload_eq_ok_iff (h _)).mpr ⟨⟨by decide, by decide⟩, by decide⟩,
    (reload_eq_ok_iff (h _)).mpr ⟨⟨by decide, by decide⟩, by decide⟩, fun other hreload => ?_⟩
  exact absurd ((reload_eq_ok_iff (h _)).mp hreload).1.texts (by decide)

end Config

end ZoneScript
