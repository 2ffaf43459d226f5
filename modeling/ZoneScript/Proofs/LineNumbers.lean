import Mathlib.Data.List.Basic
import Mathlib.Data.List.Nodup
import ZoneScript.Proofs.Lines
import ZoneScript.Script.Import

/-!
# Where lines stand

A logical line has the number of its first physical line. Every physical line that continues no other
starts one logical line, and an import lists it once: as read, as failed or as skipped.
-/

namespace ZoneScript.Script

open Text

/-! ## Numbers of logical lines -/

/-- The physical line of this number, counted from one, is the first or stands behind a line without a
backslash at the end. -/
def StartsLine (ls : List (List Char)) (number : Nat) : Prop :=
  1 ≤ number ∧ number ≤ ls.length ∧
    (number = 1 ∨ ∃ line, ls[number - 2]? = some line ∧ (trimEnd line).getLast? ≠ some '\\')

/-- The numbers at which a logical line starts if the first physical line has the number `n`. Only if
it is `fresh`, that line continues no other. -/
def starts : Nat → Bool → List (List Char) → List Nat
  | _, _, [] => []
  | n, fresh, line :: rest =>
    if fresh then n :: starts (n + 1) (continued? line).isNone rest
    else starts (n + 1) (continued? line).isNone rest

theorem numbers_joinLines (n : Nat) (ls : List (List Char)) :
    (joinLines n none ls).map LogicalLine.number = starts n true ls ∧
      ∀ pending : LogicalLine, (joinLines n (some pending) ls).map LogicalLine.number =
        pending.number :: starts n false ls := by
  induction ls generalizing n with
  | nil => exact ⟨rfl, fun _ => rfl⟩
  | cons line ls ih =>
    obtain ⟨hfresh, hpending⟩ := ih (n + 1)
    cases hline : continued? line with
    | some head => simp [joinLines, starts, hline, hpending]
    | none => simp [joinLines, starts, hline, hfresh]

theorem mem_starts {n i : Nat} {fresh : Bool} {ls : List (List Char)} :
    i ∈ starts n fresh ls ↔ ∃ k < ls.length, i = n + k ∧
      ((k = 0 ∧ fresh = true) ∨ ∃ j line, k = j + 1 ∧ ls[j]? = some line ∧ continued? line = none) := by
  induction ls generalizing n fresh with
  | nil => simp [starts]
  | cons first ls ih =>
    have htail : i ∈ starts (n + 1) (continued? first).isNone ls ↔ ∃ j < ls.length, i = n + (j + 1) ∧
        ∃ line, (first :: ls)[j]? = some line ∧ continued? line = none := by
      rw [ih]
      refine exists_congr fun j => and_congr_right fun _ => and_congr (by omega) ?_
      cases j <;> simp
    have hstarts : i ∈ starts n fresh (first :: ls) ↔
        (i = n ∧ fresh = true) ∨ i ∈ starts (n + 1) (continued? first).isNone ls := by
      cases fresh <;> simp [starts]
    rw [hstarts, htail]
    constructor
    · rintro (⟨rfl, hfresh⟩ | ⟨j, hj, hi, line, hline, hnone⟩)
      · exact ⟨0, by simp, rfl, .inl ⟨rfl, hfresh⟩⟩
      · exact ⟨j + 1, by simpa using hj, hi, .inr ⟨j, line, rfl, hline, hnone⟩⟩
    · rintro ⟨k, hk, hi, ⟨rfl, hfresh⟩ | ⟨j, line, rfl, hline, hnone⟩⟩
      · exact .inl ⟨hi, hfresh⟩
      · exact .inr ⟨j, by simpa using hk, hi, line, hline, hnone⟩

theorem pairwise_starts (n : Nat) (fresh : Bool) (ls : List (List Char)) :
    (starts n fresh ls).Pairwise (· < ·) := by
  induction ls generalizing n fresh with
  | nil => exact List.Pairwise.nil
  | cons line ls ih =>
    cases fresh with
    | false => exact ih (n + 1) _
    | true =>
      refine List.pairwise_cons.mpr ⟨fun i hi => ?_, ih (n + 1) _⟩
      obtain ⟨k, -, rfl, -⟩ := mem_starts.mp hi
      omega

theorem mem_starts_iff {ls : List (List Char)} {i : Nat} : i ∈ starts 1 true ls ↔ StartsLine ls i := by
  rw [mem_starts]
  constructor
  · rintro ⟨k, hk, rfl, ⟨rfl, -⟩ | ⟨j, line, rfl, hline, hnone⟩⟩
    · exact ⟨Nat.le_refl 1, hk, .inl rfl⟩
    · refine ⟨by omega, by omega, .inr ⟨line, ?_, continued?_eq_none.mp hnone⟩⟩
      rwa [show 1 + (j + 1) - 2 = j by omega]
  · rintro ⟨hpos, hlength, hfirst | ⟨line, hline, hback⟩⟩
    · exact ⟨0, by omega, hfirst, .inl ⟨rfl, rfl⟩⟩
    · by_cases hone : i = 1
      · exact ⟨0, by omega, hone, .inl ⟨rfl, rfl⟩⟩
      · exact ⟨i - 1, by omega, by omega,
          .inr ⟨i - 2, line, by omega, hline, continued?_eq_none.mpr hback⟩⟩

/-! ## Lines by what becomes of them -/

def Outcome.isParsed : Outcome → Bool
  | .parsed _ => true
  | _ => false

def Outcome.isFailed : Outcome → Bool
  | .failed _ => true
  | _ => false

def Outcome.isSkipped : Outcome → Bool
  | .skipped _ => true
  | _ => false

/-- The numbers of the lines with such an outcome. -/
def numbersWith (p : Outcome → Bool) (results : List (LogicalLine × Outcome)) : List Nat :=
  (results.filter (p ·.2)).map (·.1.number)

theorem mem_numbersWith {p : Outcome → Bool} {results : List (LogicalLine × Outcome)} {i : Nat} :
    i ∈ numbersWith p results ↔ ∃ result ∈ results, p result.2 = true ∧ result.1.number = i := by
  simp [numbersWith, and_assoc]

theorem numbers_outcomes (defaultZone text : String) :
    (outcomes defaultZone text).map (·.1.number) = starts 1 true (lines text.toList) := by
  rw [outcomes, List.map_map]
  exact (numbers_joinLines 1 _).1

theorem numbersWith_sublist (p : Outcome → Bool) (defaultZone text : String) :
    (numbersWith p (outcomes defaultZone text)).Sublist (starts 1 true (lines text.toList)) := by
  rw [← numbers_outcomes defaultZone]
  exact List.filter_sublist.map _

theorem disjoint_numbersWith {p q : Outcome → Bool} (h : ∀ o, p o = true → q o = false)
    (defaultZone text : String) :
    (numbersWith p (outcomes defaultZone text)).Disjoint
      (numbersWith q (outcomes defaultZone text)) := by
  -- No two lines have the same number.
  have hnodup : ((outcomes defaultZone text).map (·.1.number)).Nodup := by
    rw [numbers_outcomes]
    exact (pairwise_starts 1 true _).imp Nat.ne_of_lt
  intro i hp hq
  obtain ⟨result, hresult, hpr, hi⟩ := mem_numbersWith.mp hp
  obtain ⟨other, hother, hqr, hj⟩ := mem_numbersWith.mp hq
  have hsame : result = other := List.inj_on_of_nodup_map hnodup hresult hother (hi.trans hj.symm)
  rw [hsame] at hpr
  rw [h _ hpr] at hqr
  cases hqr

theorem map_filterMap_number {γ : Type} {read : LogicalLine × Outcome → Option γ} (number : γ → Nat)
    {p : Outcome → Bool}
    (h : ∀ line o, (read (line, o)).map number = if p o then some line.number else none)
    (results : List (LogicalLine × Outcome)) :
    (results.filterMap read).map number = numbersWith p results := by
  rw [List.map_filterMap, numbersWith, ← List.filterMap_eq_map, List.filterMap_filter]
  exact List.filterMap_congr fun (line, o) _ => h line o

/-- **Line numbers.** Whatever the script is, the lines that were read, the ones that failed and the
ones that were skipped are each listed in order, no line is listed twice, and together they are the
physical lines that continue no other. -/
theorem lineNumbers_ofText (defaultZone text : String) :
    let result := Import.ofText defaultZone text
    let failed := result.errors.map FailedLine.line
    let skipped := result.skipped.map SkippedLine.line
    result.parsed.Pairwise (· < ·) ∧ failed.Pairwise (· < ·) ∧ skipped.Pairwise (· < ·) ∧
      result.parsed.Disjoint failed ∧ result.parsed.Disjoint skipped ∧ failed.Disjoint skipped ∧
      ∀ i, i ∈ result.parsed ++ failed ++ skipped ↔ StartsLine (lines text.toList) i := by
  intro result failed skipped
  have hparsed : result.parsed = numbersWith Outcome.isParsed (outcomes defaultZone text) := by
    rw [← map_filterMap_number id, List.map_id]
    · rfl
    · rintro line (_ | _ | _) <;> rfl
  have hfailed : failed = numbersWith Outcome.isFailed (outcomes defaultZone text) :=
    map_filterMap_number _ (by rintro line (_ | _ | _) <;> rfl) _
  have hskipped : skipped = numbersWith Outcome.isSkipped (outcomes defaultZone text) :=
    map_filterMap_number _ (by rintro line (_ | _ | _) <;> rfl) _
  have hincreasing (p : Outcome → Bool) :
      (numbersWith p (outcomes defaultZone text)).Pairwise (· < ·) :=
    (pairwise_starts 1 true _).sublist (numbersWith_sublist p defaultZone text)
  rw [hparsed, hfailed, hskipped]
  refine ⟨hincreasing _, hincreasing _, hincreasing _, disjoint_numbersWith ?_ _ _,
    disjoint_numbersWith ?_ _ _, disjoint_numbersWith ?_ _ _, fun i => ?_⟩
  · rintro (_ | _ | _) ⟨⟩
    rfl
  · rintro (_ | _ | _) ⟨⟩
    rfl
  · rintro (_ | _ | _) ⟨⟩
    rfl
  · rw [← mem_starts_iff, ← numbers_outcomes defaultZone, List.mem_append, List.mem_append,
      mem_numbersWith, mem_numbersWith, mem_numbersWith, List.mem_map]
    constructor
    · rintro ((⟨r, hr, -, hi⟩ | ⟨r, hr, -, hi⟩) | ⟨r, hr, -, hi⟩) <;> exact ⟨r, hr, hi⟩
    · rintro ⟨⟨line, o⟩, hr, hi⟩
      cases o with
      | parsed fragment => exact .inl (.inl ⟨_, hr, rfl, hi⟩)
      | failed error => exact .inl (.inr ⟨_, hr, rfl, hi⟩)
      | skipped reason => exact .inr ⟨_, hr, rfl, hi⟩

end ZoneScript.Script
