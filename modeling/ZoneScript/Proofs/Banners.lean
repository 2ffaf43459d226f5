import ZoneScript.Proofs.Comments
import ZoneScript.Proofs.Directions

/-!
# Banners

A banner is a comment. As long as the name of a zone has no line feed and no backslash at its end, the
script with banners is imported as the one without.
-/

namespace ZoneScript

namespace Script

open Text Shell

/-! ## Scripts as texts -/

theorem scriptText_append (header : Bool) (ls ms : List String) :
    scriptText header (ls ++ ms) = scriptText header ls ++ scriptText false ms := by
  simp [scriptText_eq, headerLines, String.join_append, String.append_assoc]

theorem isWhole_scriptText {header : Bool} {ls : List String} (h : ∀ l ∈ ls, Closes l.toList) :
    IsWhole (scriptText header ls).toList := by
  have hall : ∀ l ∈ headerLines header ++ ls, Closes l.toList :=
    List.forall_mem_append.mpr ⟨fun l hl => (standsAlone_headerLines header l hl).2, h⟩
  rw [scriptText_eq]
  generalize headerLines header ++ ls = ls at hall
  induction ls with
  | nil => decide
  | cons l ls ih =>
    obtain ⟨hl, hls⟩ := List.forall_mem_cons.mp hall
    simpa using isWhole_append (isWhole_of_closes hl) (ih hls)

/-! ## Scripts without their banners -/

theorem spoken_scriptText_append {header : Bool} {ls : List String}
    (h : IsWhole (scriptText header ls).toList) (ms : List String) :
    spoken (scriptText header (ls ++ ms)) =
      spoken (scriptText header ls) ++ spoken (scriptText false ms) := by
  rw [scriptText_append, spoken_append h]

theorem spoken_banner {banner : String} (h : IsSingle (Line.banner banner).text) (ls : List String) :
    spoken (scriptText false ((Line.banner banner).text :: ls)) = spoken (scriptText false ls) := by
  have hcomment : isComment (Line.banner banner).text.toList = true := by
    have htext : (Line.banner banner).text.toList = ['#'] ++ ' ' :: banner.toList := by
      simp [Line.text]
    rw [htext]
    exact isComment_append rfl _
  have htext : scriptText false ((Line.banner banner).text :: ls) =
      (Line.banner banner).text ++ "\n" ++ scriptText false ls := by simp [scriptText]
  rw [htext, spoken_comment h hcomment]

/-- Some lines of a script as a text. -/
def textOf (ls : List Line) : String :=
  scriptText false (ls.map Line.text)

theorem spoken_textOf_append {ls : List Line} (h : IsWhole (textOf ls).toList) (rest : List Line) :
    spoken (textOf (ls ++ rest)) = spoken (textOf ls) ++ spoken (textOf rest) := by
  rw [textOf, List.map_append, spoken_scriptText_append h]
  rfl

theorem spoken_block (options : Options) {banner : String} {changes : List Change}
    (h : changes ≠ [] → IsSingle (Line.banner banner).text) (rest : List Line) :
    spoken (textOf (block { options with banners := true } banner changes ++ rest)) =
      spoken (textOf (block { options with banners := false } banner changes ++ rest)) := by
  cases changes with
  | nil => rfl
  | cons change changes => exact spoken_banner (h (List.cons_ne_nil _ _)) _

theorem args?_of_mem_zoneChanges {verb : Verb} {name : String} {zone : Zone} {change : Change}
    (h : change ∈ zoneChanges verb name zone) : change.args? = none := by
  have hkind := kind?_of_mem_zoneChanges h
  cases change <;> first | rfl | cases hkind

theorem closes_zoneBlock {options : Options} (hbanners : options.banners = false) (banner : String)
    (verb : Verb) (entry : String × Zone) :
    ∀ line ∈ block options banner (zoneChanges verb entry.1 entry.2), Closes line.text.toList := by
  intro line hline
  rw [block, hbanners] at hline
  split at hline
  · cases hline
  · obtain ⟨change, hchange, hline⟩ := List.mem_flatMap.mp hline
    obtain ⟨permanent, -, rfl⟩ := mem_changeLines.mp hline
    exact closes_command permanent (by simp [args?_of_mem_zoneChanges hchange])

/-- The banner of a zone keeps to its line if the zone has lines at all. -/
def BannersFit (direction : Direction) (config : Config) : Prop :=
  ∀ entry ∈ config.zones, zoneChanges direction.verb entry.1 entry.2 ≠ [] →
    IsSingle (Line.banner ("Zone: " ++ entry.1)).text

theorem spoken_zoneLines (options : Options) {direction : Direction} {config : Config}
    (h : BannersFit direction config) {rest more : List Line}
    (hrest : spoken (textOf rest) = spoken (textOf more)) :
    spoken (textOf (zoneLines { options with banners := true } direction config ++ rest)) =
      spoken (textOf (zoneLines { options with banners := false } direction config ++ more)) := by
  obtain ⟨vars, zones, direct⟩ := config
  induction zones with
  | nil => exact hrest
  | cons entry zones ih =>
    obtain ⟨hentry, hzones⟩ := List.forall_mem_cons.mp h
    let changes := zoneChanges direction.verb entry.1 entry.2
    let below (banners : Bool) : List Line :=
      zoneLines { options with banners } direction { vars, zones, direct }
    let quiet := block { options with banners := false } ("Zone: " ++ entry.1) changes
    -- the lines of the zone are whole, so what follows them says the same as on its own
    have hquiet : IsWhole (textOf quiet).toList :=
      isWhole_scriptText (List.forall_mem_map.mpr (closes_zoneBlock rfl _ direction.verb entry))
    calc spoken (textOf (block { options with banners := true } _ changes ++ below true ++ rest))
      _ = spoken (textOf (quiet ++ (below true ++ rest))) := by
        rw [List.append_assoc]
        exact spoken_block options hentry _
      _ = spoken (textOf (quiet ++ (below false ++ more))) := by
        rw [spoken_textOf_append hquiet, spoken_textOf_append hquiet, ih hzones]
      _ = spoken (textOf (quiet ++ below false ++ more)) := by rw [List.append_assoc]

theorem spoken_directLines (options : Options) (direction : Direction) (config : Config)
    (rest : List Line) :
    spoken (textOf (directLines { options with banners := true } direction config ++ rest)) =
      spoken (textOf (directLines { options with banners := false } direction config ++ rest)) := by
  have hbanner : IsSingle (Line.banner "Direct rules").text := ⟨by decide, by decide⟩
  cases hdirect : config.direct with
  | none => simp [directLines, hdirect]
  | some direct => simpa [directLines, hdirect] using spoken_block options (fun _ => hbanner) rest

theorem zoneLines_eq_nil {direction : Direction} {config : Config}
    (h : ∀ entry ∈ config.zones, zoneChanges direction.verb entry.1 entry.2 = []) (options : Options) :
    zoneLines options direction config = [] := by
  refine List.flatMap_eq_nil_iff.mpr fun entry hentry => ?_
  simp [block, h entry hentry]

theorem isSingle_banner {name : String} (hfeed : '\n' ∉ name.toList)
    (hback : (trimEnd name.toList).getLast? ≠ some '\\') :
    IsSingle (Line.banner ("Zone: " ++ name)).text := by
  have htext : (Line.banner ("Zone: " ++ name)).text.toList = "# Zone: ".toList ++ name.toList := by
    simp [Line.text]
  rw [IsSingle, continued?_eq_none, htext]
  refine ⟨by simpa using hfeed, ?_⟩
  by_cases hname : trimEnd name.toList = []
  · rw [trimEnd_append_of_eq_nil hname]
    decide
  · rwa [trimEnd_append hname, List.getLast?_append_of_ne_nil _ hname]

/-- **Banners.** If no zone that has lines has a name with a line feed or with a backslash at its end,
and the direct commands in front of such zones end their last line, then the script with banners is
imported as the one without: as the same configuration and with the same errors. -/
theorem ofText_banners {direction : Direction} {config : Config} {transient : Bool}
    (h : ∀ entry ∈ config.zones, zoneChanges direction.verb entry.1 entry.2 ≠ [] →
      '\n' ∉ entry.1.toList ∧ (trimEnd entry.1.toList).getLast? ≠ some '\\' ∧
        (direction = .remove →
          IsWhole (textOf (directLines { transient, banners := false } .remove config)).toList))
    (header : Bool) (defaultZone : String) :
    let imported (banners : Bool) : Import :=
      Import.ofText defaultZone (scriptText header (lines { transient, banners } direction config))
    (imported true).config = (imported false).config ∧
      (imported true).errors.length = (imported false).errors.length ∧
      (imported true).errors.map FailedLine.complaint =
        (imported false).errors.map FailedLine.complaint := by
  intro imported
  have hfit : BannersFit direction config := fun entry hentry hne =>
    have ⟨hfeed, hback, _⟩ := h entry hentry hne
    isSingle_banner hfeed hback
  have hscript (banners : Bool) :
      spoken (scriptText header (lines { transient, banners } direction config)) =
        spoken (scriptText header []) ++
          spoken (textOf (ofConfig { transient, banners } direction config)) := by
    have hheader : IsWhole (scriptText header []).toList := isWhole_scriptText (by simp)
    rw [textOf, ← spoken_scriptText_append hheader, List.nil_append, lines]
  have hlines : spoken (textOf (ofConfig { transient, banners := true } direction config)) =
      spoken (textOf (ofConfig { transient, banners := false } direction config)) := by
    cases direction with
    | apply =>
      simp only [ofConfig, List.append_assoc]
      exact spoken_zoneLines { transient } hfit (spoken_directLines { transient } _ _ _)
    | remove =>
      simp only [ofConfig, List.append_assoc]
      rw [spoken_directLines { transient }]
      by_cases hzones : ∀ entry ∈ config.zones, zoneChanges .remove entry.1 entry.2 = []
      · rw [zoneLines_eq_nil hzones, zoneLines_eq_nil hzones]
      · push Not at hzones
        obtain ⟨entry, hentry, hne⟩ := hzones
        obtain ⟨-, -, hwhole⟩ := h entry hentry hne
        rw [spoken_textOf_append (hwhole rfl), spoken_textOf_append (hwhole rfl),
          spoken_zoneLines { transient } hfit rfl]
  obtain ⟨hconfig, herrors⟩ := ofText_congr
    ((hscript true).trans ((congrArg _ hlines).trans (hscript false).symm)) defaultZone
  exact ⟨hconfig, by simpa using congrArg List.length herrors, herrors⟩

/-- A name with a backslash in the middle, a zone without lines whose name could not stand in a banner,
and a direct rule that cannot be read. -/
theorem ofText_banners_removed :
    let rule : DirectRule := { ipv := "eb", table := "t", chain := "X", args := "it's" }
    let zone : Zone := { masquerade := some true }
    let config : Config :=
      { zones := [("#\\a", zone), ("b\n\\", {})], direct := some { rules := [rule] } }
    let imported (banners : Bool) : Import :=
      Import.ofText "public" (scriptText false (lines { banners } .remove config))
    (imported true).config = { zones := [("#\\a", zone)] } ∧ (imported true).errors.length = 1 := by
  intro rule zone config imported
  have hfit : ∀ entry ∈ config.zones, zoneChanges Direction.remove.verb entry.1 entry.2 ≠ [] →
      '\n' ∉ entry.1.toList ∧ (trimEnd entry.1.toList).getLast? ≠ some '\\' ∧
        (Direction.remove = .remove →
          IsWhole (textOf (directLines { banners := false } .remove config)).toList) := by
    decide +kernel
  have hquiet : (imported false).config = { zones := [("#\\a", zone)] } ∧
      (imported false).errors.length = 1 := by
    decide +kernel
  obtain ⟨hconfig, hlength, -⟩ := ofText_banners hfit false "public"
  exact ⟨hconfig.trans hquiet.1, hlength.trans hquiet.2⟩

/-- A backslash at the end of the name takes the first command of the zone into the comment. -/
theorem banner_takes_command :
    let zone : Zone := { services := [{ value := "ssh" }] }
    let imported (banners : Bool) : Import :=
      Import.ofText "public" (scriptText false (lines { banners } .apply { zones := [("a\\", zone)] }))
    (imported true).config = {} ∧ (imported false).config = { zones := [("a\\", zone)] } := by
  decide +kernel

end Script

end ZoneScript
