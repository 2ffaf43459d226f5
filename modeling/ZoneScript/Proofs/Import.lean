import ZoneScript.Proofs.Lines
import ZoneScript.Proofs.Merge

/-!
# Importing in pieces

A script that is cut between two commands may be imported piece by piece: merging what the pieces say
gives what the whole says.
-/

namespace ZoneScript.Script

open Ordered Text

/-! ## Absorbing fragments -/

/-- The direct block with another behind it. -/
def appendDirects : Option Direct → Option Direct → Option Direct
  | direct, none => direct
  | direct, some more => some (appendDirect (direct.getD {}) more)

theorem appendDirects_assoc (a b c : Option Direct) :
    appendDirects (appendDirects a b) c = appendDirects a (appendDirects b c) := by
  cases c with
  | none => rfl
  | some c =>
    cases b with
    | none => simp [appendDirects, appendDirect]
    | some b => simp [appendDirects, appendDirect_assoc]

theorem absorb_zones_fold (zones : List (String × Zone)) (config : Config) :
    zones.foldl (fun config (name, zone) => config.alterZone name (appendZone · zone)) config =
      { config with zones := appendZones config.zones zones } := by
  induction zones generalizing config with
  | nil => rfl
  | cons e zones ih => exact ih _

theorem absorb_eq (config fragment : Config) :
    absorb config fragment =
      { config with
        zones := appendZones config.zones fragment.zones
        direct := appendDirects config.direct fragment.direct } := by
  rw [absorb, absorb_zones_fold]
  cases fragment.direct <;> rfl

@[simp]
theorem absorb_empty (config : Config) : absorb config {} = config := by
  rw [absorb_eq]
  rfl

theorem absorb_assoc {a b : Config} (ha : (names a.zones).Nodup) (hb : (names b.zones).Nodup)
    (c : Config) : absorb (absorb a b) c = absorb a (absorb b c) := by
  simp [absorb_eq, appendZones_assoc ha hb, appendDirects_assoc]

theorem nodup_absorb {a : Config} (ha : (names a.zones).Nodup) (b : Config) :
    (names (absorb a b).zones).Nodup := by
  rw [absorb_eq]
  exact nodup_appendZones ha _

theorem nodup_empty : (names ({} : Config).zones).Nodup := List.nodup_nil

/-- What fragments come to, repetitions included. -/
def gather (fragments : List Config) : Config :=
  fragments.foldl absorb {}

theorem nodup_foldl_absorb {config : Config} (h : (names config.zones).Nodup)
    (fragments : List Config) : (names (fragments.foldl absorb config).zones).Nodup := by
  induction fragments generalizing config with
  | nil => exact h
  | cons f fragments ih => exact ih (nodup_absorb h f)

theorem nodup_gather (fragments : List Config) : (names (gather fragments).zones).Nodup :=
  nodup_foldl_absorb nodup_empty _

theorem foldl_absorb {config : Config} (h : (names config.zones).Nodup) (fragments : List Config) :
    fragments.foldl absorb config = absorb config (gather fragments) := by
  induction fragments generalizing config with
  | nil => exact (absorb_empty config).symm
  | cons f fragments ih =>
    have hf : (names (absorb {} f).zones).Nodup := nodup_absorb nodup_empty f
    calc fragments.foldl absorb (absorb config f)
      _ = absorb (absorb config f) (gather fragments) := ih (nodup_absorb h f)
      _ = absorb (absorb (absorb config {}) f) (gather fragments) := by rw [absorb_empty]
      _ = absorb (absorb config (absorb {} f)) (gather fragments) := by
        rw [absorb_assoc h nodup_empty]
      _ = absorb config (absorb (absorb {} f) (gather fragments)) := absorb_assoc h hf _
      _ = absorb config (gather (f :: fragments)) := by
        rw [← ih hf]
        rfl

theorem gather_append (fs gs : List Config) :
    gather (fs ++ gs) = absorb (gather fs) (gather gs) := by
  rw [gather, List.foldl_append, foldl_absorb (nodup_foldl_absorb nodup_empty fs)]
  rfl

theorem vars_gather (fragments : List Config) : (gather fragments).vars = [] := by
  suffices ∀ config : Config, (fragments.foldl absorb config).vars = config.vars from this {}
  induction fragments with
  | nil => exact fun _ => rfl
  | cons f fragments ih =>
    intro config
    rw [List.foldl_cons, ih, absorb_eq]

theorem ruleGroups_gather (fragments : List Config) :
    ∀ direct, (gather fragments).direct = some direct → direct.ruleGroups = [] := by
  suffices ∀ config : Config, (∀ direct, config.direct = some direct → direct.ruleGroups = []) →
      ∀ direct, (fragments.foldl absorb config).direct = some direct → direct.ruleGroups = [] from
    this {} (by simp)
  induction fragments with
  | nil => exact fun _ h => h
  | cons f fragments ih =>
    intro config h
    apply ih
    rw [absorb_eq]
    intro direct hd
    cases hf : f.direct with
    | none => exact h direct (by simpa [hf, appendDirects] using hd)
    | some more =>
      simp only [hf, appendDirects, Option.some.injEq] at hd
      rw [← hd, appendDirect]
      cases hc : config.direct with
      | none => rfl
      | some d => exact h d hc

/-! ## The configuration that fragments come to -/

/-- The direct block without repetitions, if there is anything in it. -/
def tidyDirect (direct : Option Direct) : Option Direct :=
  (direct.map Direct.dedup).filter fun direct => !direct.isEmpty

theorem ofFragments_eq (fragments : List Config) :
    ofFragments fragments =
      { vars := []
        zones := mapValues Zone.dedup (gather fragments).zones
        direct := tidyDirect (gather fragments).direct } := by
  show { (gather fragments).dedup with
    direct := (gather fragments).dedup.direct.filter fun direct => !direct.isEmpty } = _
  rw [Config.dedup_eq, vars_gather]
  rfl

theorem tidyDirect_getD (direct : Option Direct) :
    tidyDirect direct = tidyDirect (some (direct.getD {})) := by
  cases direct <;> rfl

theorem tidyDirect_eq (direct : Option Direct) :
    tidyDirect direct = (direct.filter fun direct => !direct.isEmpty).map Direct.dedup := by
  simp only [tidyDirect, Option.filter_map, Function.comp_def, Direct.isEmpty_dedup]

theorem tidyDirect_empty : tidyDirect (some {}) = none := rfl

theorem tidyDirect_some {direct : Direct} (h : direct ≠ {}) :
    tidyDirect (some direct) = some direct.dedup := by
  have : direct.isEmpty ≠ true := fun he => h (Direct.eq_empty he)
  simpa [tidyDirect, Direct.isEmpty_dedup] using this

theorem appendDirect_empty (a : Direct) : appendDirect a {} = a := by
  simp [appendDirect]

theorem empty_appendDirect {b : Direct} (hb : b.ruleGroups = []) : appendDirect {} b = b := by
  cases b
  simpa [appendDirect] using hb.symm

theorem getD_appendDirects (a b : Option Direct) :
    (appendDirects a b).getD {} = appendDirect (a.getD {}) (b.getD {}) := by
  cases b with
  | none => exact (appendDirect_empty _).symm
  | some b => rfl

theorem appendDirect_ne_empty {a b : Direct} (hne : b ≠ {}) (hb : b.ruleGroups = []) :
    appendDirect a b ≠ {} := by
  intro h
  apply hne
  cases b
  simp_all [appendDirect]

theorem tidyDirect_appendDirect (a : Direct) {b : Direct} (hb : b.ruleGroups = []) :
    tidyDirect (some (appendDirect a b)) =
      Direct.mergeOptional (tidyDirect (some a)) (tidyDirect (some b)) := by
  have again (d : Direct) : Direct.mergeOptional (some d.dedup) none = some d.dedup :=
    congrArg some (Direct.dedup_dedup d)
  by_cases hne : b = {}
  · subst hne
    rw [appendDirect_empty, tidyDirect_empty]
    by_cases ha : a = {}
    · subst ha; rfl
    · rw [tidyDirect_some ha, again]
  · rw [tidyDirect_some hne]
    by_cases ha : a = {}
    · subst ha
      rw [empty_appendDirect hb, tidyDirect_some hne, tidyDirect_empty]
      exact (again b).symm
    · have hdedup : b.dedup.ruleGroups = [] := hb
      rw [tidyDirect_some (appendDirect_ne_empty hne hb), tidyDirect_some ha, Direct.mergeOptional,
        Direct.merge_eq hdedup, Direct.dedup_appendDirect]

theorem tidyDirect_appendDirects (a : Option Direct) {b : Option Direct}
    (hb : ∀ direct, b = some direct → direct.ruleGroups = []) :
    tidyDirect (appendDirects a b) = Direct.mergeOptional (tidyDirect a) (tidyDirect b) := by
  have hg : (b.getD {}).ruleGroups = [] := by
    cases b with
    | none => rfl
    | some d => exact hb d rfl
  rw [tidyDirect_getD (appendDirects a b), getD_appendDirects, tidyDirect_appendDirect _ hg,
    ← tidyDirect_getD, ← tidyDirect_getD]

theorem ofFragments_append (fs gs : List Config) :
    ofFragments (fs ++ gs) = (ofFragments fs).merge (ofFragments gs) := by
  rw [ofFragments_eq, ofFragments_eq, ofFragments_eq, Config.merge, Config.mergeZones_eq,
    dedup_appendZones (nodup_gather fs) (nodup_gather gs), gather_append, absorb_eq,
    tidyDirect_appendDirects _ (ruleGroups_gather gs)]
  rfl

/-! ## Pieces of a script -/

/-- The same report for a line further down. -/
def FailedLine.shift (k : Nat) (failed : FailedLine) : FailedLine :=
  { failed with line := failed.line + k }

def SkippedLine.shift (k : Nat) (skipped : SkippedLine) : SkippedLine :=
  { skipped with line := skipped.line + k }

theorem outcomes_append (zone : String) {s t : String} (h : IsWhole s.toList) :
    outcomes zone (s ++ t) = outcomes zone s ++
      (outcomes zone t).map fun (line, result) => (line.shift (lines s.toList).length, result) := by
  simp only [outcomes, logicalLines_append h, List.map_append, List.map_map]
  rfl

-- `move` is what the shift does to what is read off.
theorem filterMap_shift {γ : Type} {k : Nat} {read : LogicalLine × Outcome → Option γ} (move : γ → γ)
    (h : ∀ line result, read (line.shift k, result) = (read (line, result)).map move)
    (results : List (LogicalLine × Outcome)) :
    (results.map fun (line, result) => (line.shift k, result)).filterMap read =
      (results.filterMap read).map move := by
  rw [List.filterMap_map, List.map_filterMap]
  exact congrArg (List.filterMap · results) (funext fun (line, result) => h line result)

/-- **Pieces.** Importing a script whole is importing its first piece and the rest, merging what they
say, and counting the lines of the rest from where the first piece ends. -/
theorem ofText_append (zone : String) {s t : String} (h : IsWhole s.toList) :
    let k := (lines s.toList).length
    let first := Import.ofText zone s
    let rest := Import.ofText zone t
    Import.ofText zone (s ++ t) =
      { config := first.config.merge rest.config
        errors := first.errors ++ rest.errors.map (.shift k)
        skipped := first.skipped ++ rest.skipped.map (.shift k)
        parsed := first.parsed ++ rest.parsed.map (· + k) } := by
  intro k first rest
  simp only [Import.ofText, outcomes_append zone h, List.filterMap_append, Import.mk.injEq]
  refine ⟨?_, ?_, ?_, ?_⟩
  · rw [fragments, List.filterMap_append, filterMap_shift id, List.map_id]
    · exact ofFragments_append _ _
    · rintro line (_ | _ | _) <;> rfl
  · rw [filterMap_shift (FailedLine.shift k)]
    · rfl
    · rintro line (_ | _ | _) <;> rfl
  · rw [filterMap_shift (SkippedLine.shift k)]
    · rfl
    · rintro line (_ | _ | _) <;> rfl
  · rw [filterMap_shift (· + k)]
    · rfl
    · rintro line (_ | _ | _) <;> rfl

/-- A command over two lines, then one that repeats and extends it and one that cannot be read. -/
theorem ofText_append_continued :
    let s := "firewall-cmd --zone=a \\\n --add-service=ssh\n"
    let t := "firewall-cmd --zone=a --add-service=ssh --add-service=dns\nfirewall-cmd --panic-on\n"
    IsWhole s.toList ∧ Import.ofText "public" (s ++ t) =
      { config := { zones := [("a", { services := [{ value := "ssh" }, { value := "dns" }] })] }
        errors := [⟨4, "firewall-cmd --panic-on", .unknownCommand⟩]
        parsed := [1, 3] } := by
  have h : IsWhole "firewall-cmd --zone=a \\\n --add-service=ssh\n".toList := by decide +kernel
  exact ⟨h, (ofText_append "public" h).trans (by decide +kernel)⟩

end ZoneScript.Script
