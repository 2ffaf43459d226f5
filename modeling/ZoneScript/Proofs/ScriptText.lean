import ZoneScript.Proofs.Import
import ZoneScript.Proofs.ReadBack

/-!
# The text of a script

The text of a script is its lines, each with a line feed behind it, under a header or under none. As
long as no line is continued, the importer sees the lines as they were written, and the header says
nothing.
-/

namespace ZoneScript

namespace Text

/-! ## Carriage returns

A carriage return at the end of a line goes with the line feed. As white space it would not have
mattered. -/

theorem trimEnd_dropReturn (line : List Char) : trimEnd (dropReturn line) = trimEnd line := by
  induction line with
  | nil => rfl
  | cons c line ih =>
    rw [dropReturn]
    split
    · rename_i h
      simp only [Bool.and_eq_true, beq_iff_eq, List.isEmpty_iff] at h
      rw [h.1, h.2]
      rfl
    · rw [trimEnd, ih, trimEnd]

theorem trim_dropReturn (line : List Char) : trim (dropReturn line) = trim line := by
  induction line with
  | nil => rfl
  | cons c line ih =>
    by_cases hspace : isSpace c = true
    · have hline : trim (c :: line) = trim line := by simp [trim, trimStart, hspace]
      rw [hline, dropReturn]
      split
      · rename_i h
        simp only [Bool.and_eq_true, List.isEmpty_iff] at h
        rw [h.2]
      · rw [← ih]
        simp [trim, trimStart, hspace]
    · have hreturn : (c == '\r') = false := by
        rw [beq_eq_false_iff_ne]
        rintro rfl
        exact hspace (by decide)
      have hstart (rest : List Char) : trimStart (c :: rest) = c :: rest := by
        simp [trimStart, hspace]
      have hdrop : dropReturn (c :: line) = c :: dropReturn line := by simp [dropReturn, hreturn]
      rw [trim, trim, hstart, ← trimEnd_dropReturn (c :: line), hdrop, hstart]

end Text

namespace Script

open Text Shell

theorem continued?_dropReturn (line : List Char) : continued? (dropReturn line) = continued? line := by
  rw [continued?, continued?, trimEnd_dropReturn]

theorem outcome_dropReturn (defaultZone : String) (line : List Char) :
    outcome defaultZone (dropReturn line) = outcome defaultZone line := by
  simp only [outcome, trim_dropReturn]

/-! ## Lines in the text -/

/-- The lines of the header. -/
def headerLines (header : Bool) : List String :=
  if header then ["#!/bin/sh", "set -e"] else []

theorem scriptText_eq (header : Bool) (ls : List String) :
    scriptText header ls = String.join ((headerLines header ++ ls).map (· ++ "\n")) := by
  cases header with
  | false => exact String.empty_append
  | true =>
    simp only [scriptText, headerLines, if_true, List.cons_append, List.nil_append, List.map_cons,
      String.join_cons, ← String.append_assoc]
    rfl

theorem lines_join {ls : List String} (h : ∀ l ∈ ls, '\n' ∉ l.toList) :
    Text.lines (String.join (ls.map (· ++ "\n"))).toList = ls.map fun l => dropReturn l.toList := by
  induction ls with
  | nil => rfl
  | cons l ls ih =>
    have hl : (String.join ((l :: ls).map (· ++ "\n"))).toList =
        l.toList ++ '\n' :: (String.join (ls.map (· ++ "\n"))).toList := by simp
    have hfeed : ∀ c ∈ l.toList, ¬ (c == '\n') = true := by
      rintro c hc hn
      rw [beq_iff_eq.mp hn] at hc
      exact h l List.mem_cons_self hc
    rw [hl, lines_append_cons, ih fun m hm => h m (List.mem_cons_of_mem _ hm), pieces_of_not hfeed]
    rfl

theorem map_joinLines {ls : List (List Char)} (h : ∀ l ∈ ls, continued? l = none) (n : Nat) :
    (joinLines n none ls).map (·.text) = ls := by
  induction ls generalizing n with
  | nil => rfl
  | cons l ls ih =>
    rw [joinLines, h l List.mem_cons_self]
    simp [ih fun m hm => h m (List.mem_cons_of_mem _ hm)]

/-- The line neither falls apart in a script nor is continued. -/
def IsSingle (line : String) : Prop :=
  '\n' ∉ line.toList ∧ continued? line.toList = none

/-- Wherever it stands in a script, the line is a logical line of it. -/
def StandsAlone (line : String) : Prop :=
  '\n' ∉ line.toList ∧ Closes line.toList

theorem StandsAlone.isSingle {line : String} (h : StandsAlone line) : IsSingle line :=
  ⟨h.1, continued?_of_closes h.2⟩

theorem standsAlone_headerLines (header : Bool) : ∀ l ∈ headerLines header, StandsAlone l := by
  cases header with
  | false => simp [headerLines]
  | true =>
    have hshell : Closes "#!/bin/sh".toList := ⟨"#!/bin/s".toList, 'h', rfl, rfl, by decide⟩
    have hset : Closes "set -e".toList := ⟨"set -".toList, 'e', rfl, rfl, by decide⟩
    simpa [headerLines, StandsAlone] using ⟨hshell, hset⟩

theorem texts_of_isSingle {header : Bool} {ls : List String} (h : ∀ l ∈ ls, IsSingle l) :
    (logicalLines (scriptText header ls)).map (·.text) =
      (headerLines header ++ ls).map fun l => dropReturn l.toList := by
  have hall : ∀ l ∈ headerLines header ++ ls, IsSingle l :=
    List.forall_mem_append.mpr ⟨fun l hl => (standsAlone_headerLines header l hl).isSingle, h⟩
  rw [logicalLines, scriptText_eq, lines_join fun l hl => (hall l hl).1]
  refine map_joinLines (fun l hl => ?_) 1
  obtain ⟨s, hs, rfl⟩ := List.mem_map.mp hl
  rw [continued?_dropReturn]
  exact (hall s hs).2

theorem texts_logicalLines {header : Bool} {ls : List String}
    (h : ∀ l ∈ ls, StandsAlone l) :
    (logicalLines (scriptText header ls)).map (·.text) =
      (headerLines header ++ ls).map String.toList := by
  have hall : ∀ l ∈ headerLines header ++ ls, StandsAlone l :=
    List.forall_mem_append.mpr ⟨standsAlone_headerLines header, h⟩
  rw [texts_of_isSingle fun l hl => (h l hl).isSingle]
  exact List.map_congr_left fun l hl => dropReturn_of_closes (hall l hl).2

/-- The fragment of an outcome. -/
def Outcome.fragment? : Outcome → Option Config
  | .parsed fragment => some fragment
  | _ => none

theorem config_ofText (defaultZone text : String) :
    (Import.ofText defaultZone text).config = ofFragments
      (((logicalLines text).map (·.text)).filterMap fun l => (outcome defaultZone l).fragment?) := by
  simp only [Import.ofText, outcomes, fragments, List.filterMap_map]
  refine congrArg ofFragments (congrArg (List.filterMap · _) (funext fun line => ?_))
  simp only [Function.comp_apply]
  cases outcome defaultZone line.text <;> rfl

theorem errors_ofText {defaultZone text : String}
    (h : ∀ l ∈ (logicalLines text).map (·.text), ∀ error, outcome defaultZone l ≠ .failed error) :
    (Import.ofText defaultZone text).errors = [] := by
  simp only [Import.ofText, outcomes, List.filterMap_eq_nil_iff, List.mem_map]
  rintro _ ⟨line, hline, rfl⟩
  have hnot := h line.text (List.mem_map.mpr ⟨line, hline, rfl⟩)
  cases hresult : outcome defaultZone line.text with
  | failed error => exact absurd hresult (hnot error)
  | skipped reason | parsed fragment => rfl

theorem outcome_header (defaultZone : String) (header : Bool) :
    ∀ l ∈ headerLines header, ∃ reason, outcome defaultZone l.toList = .skipped reason := by
  cases header with
  | false => simp [headerLines]
  | true =>
    simp only [headerLines, if_true, List.forall_mem_cons, List.not_mem_nil, false_implies,
      implies_true, and_true]
    exact ⟨⟨.comment, rfl⟩, ⟨.notCommand, rfl⟩⟩

theorem fragments_header (defaultZone : String) (header : Bool) :
    ((headerLines header).map String.toList).filterMap
      (fun l => (outcome defaultZone l).fragment?) = [] := by
  rw [List.filterMap_map, List.filterMap_eq_nil_iff]
  intro line hline
  obtain ⟨reason, hskipped⟩ := outcome_header defaultZone header line hline
  rw [Function.comp_apply, hskipped]
  rfl

theorem outcome_reload (defaultZone : String) :
    outcome defaultZone Line.reload.text.toList = .skipped .reload := by
  rfl

theorem closes_reload : Closes Line.reload.text.toList :=
  ⟨"firewall-cmd --reloa".toList, 'd', rfl, rfl, by decide⟩

theorem config_scriptText (defaultZone : String) (header : Bool) {ls : List String}
    (h : ∀ l ∈ ls, IsSingle l) :
    (Import.ofText defaultZone (scriptText header ls)).config =
      ofFragments (ls.filterMap fun l => (outcome defaultZone l.toList).fragment?) := by
  have hdrop (ms : List String) :
      (ms.map fun l => dropReturn l.toList).filterMap (fun l => (outcome defaultZone l).fragment?) =
        ms.filterMap fun l => (outcome defaultZone l.toList).fragment? := by
    rw [List.filterMap_map]
    exact congrArg (List.filterMap · ms)
      (funext fun l => congrArg Outcome.fragment? (outcome_dropReturn defaultZone l.toList))
  have hheader := fragments_header defaultZone header
  rw [List.filterMap_map] at hheader
  rw [config_ofText, texts_of_isSingle h, hdrop, List.filterMap_append]
  exact congrArg (fun fs => ofFragments (fs ++ _)) hheader


end Script

end ZoneScript
