import Mathlib.Data.List.Basic
import Mathlib.Tactic.Ring
import ZoneScript.Double.Text
import ZoneScript.Proofs.Numbers

/-!
# Points and exponents

The text of a number shows by a point whether its shortest decimal has digits behind it, and this is so
exactly if the number is not whole. Two texts with a point are of the same decimal if they are equal.
-/

namespace ZoneScript

namespace Text

theorem foldDigits?_zeros (k : Nat) (cs : List Char) :
    foldDigits? 10 0 (List.replicate k '0' ++ cs) = foldDigits? 10 0 cs := by
  induction k with
  | zero => rfl
  | succ k ih => exact ih

theorem foldDigits?_replicate (k value : Nat) :
    foldDigits? 10 value (List.replicate k '0') = some (value * 10 ^ k) := by
  induction k generalizing value with
  | zero => simp [foldDigits?]
  | succ k ih =>
    rw [List.replicate_succ, foldDigits?, show digitValue? 10 '0' = some 0 from rfl, Option.bind_some,
      ih, Nat.add_zero, Nat.pow_succ', Nat.mul_assoc]

theorem toDigits_mul_pow {n : Nat} (hn : 0 < n) (k : Nat) :
    Nat.toDigits 10 (n * 10 ^ k) = Nat.toDigits 10 n ++ List.replicate k '0' := by
  induction k with
  | zero => simp
  | succ k ih =>
    have hpos : 0 < n * 10 ^ k := Nat.mul_pos hn (Nat.pow_pos (by decide))
    have hlast := Nat.toDigits_append_toDigits (b := 10) (d := 0) (by decide) hpos (by decide)
    rw [List.replicate_succ', ← List.append_assoc, ← ih]
    calc Nat.toDigits 10 (n * 10 ^ (k + 1))
      _ = Nat.toDigits 10 (10 * (n * 10 ^ k) + 0) := by rw [Nat.pow_succ', Nat.mul_left_comm, Nat.add_zero]
      _ = Nat.toDigits 10 (n * 10 ^ k) ++ ['0'] := hlast.symm

end Text

namespace Double

open Text

variable {d other : Digits} {whole : String}

/-! ## Positional texts -/

theorem positional_of_nonneg (h : 0 ≤ d.power) (whole : String) : positional whole d =
    Nat.toDigits 10 d.digits ++ List.replicate d.power.toNat '0' ++ whole.toList :=
  if_pos h

theorem positional_of_neg (h : d.power < 0) (whole : String) : positional whole d = positional "" d := by
  rw [positional, positional, if_neg (Int.not_le.mpr h), if_neg (Int.not_le.mpr h)]

theorem isDigit_of_mem_positional (h : 0 ≤ d.power) : ∀ c ∈ positional "" d, c.isDigit = true := by
  rw [positional_of_nonneg h]
  intro c hc
  simp only [String.toList_empty, List.append_nil, List.mem_append, List.mem_replicate] at hc
  rcases hc with hc | ⟨-, rfl⟩
  · exact isDigit_of_mem_toDigits hc
  · rfl

theorem foldDigits?_positional (h : 0 ≤ d.power) :
    foldDigits? 10 0 (positional "" d) = some (d.digits * 10 ^ d.power.toNat) := by
  rw [positional_of_nonneg h, String.toList_empty, List.append_nil, foldDigits?_append,
    foldDigits?_toDigits, Option.bind_some, foldDigits?_replicate]

theorem positional_point (h : d.power < 0) : ∃ front back, positional "" d = front ++ '.' :: back ∧
    (∀ c ∈ front ++ back, c.isDigit = true) ∧ (back.length : Int) = -d.power ∧
      foldDigits? 10 0 (front ++ back) = some d.digits := by
  rw [positional, if_neg (Int.not_le.mpr h)]
  have hdigits : ∀ c ∈ Nat.toDigits 10 d.digits, c.isDigit = true := fun c => isDigit_of_mem_toDigits
  split
  · rename_i hplaces
    refine ⟨_, _, rfl, ?_, ?_, ?_⟩
    · rwa [List.take_append_drop]
    · rw [List.length_drop]
      omega
    · rw [List.take_append_drop, foldDigits?_toDigits]
  · rename_i hplaces
    let zeros := List.replicate (-((Nat.toDigits 10 d.digits).length + d.power)).toNat '0'
    refine ⟨['0'], zeros ++ Nat.toDigits 10 d.digits, rfl, ?_, ?_, ?_⟩
    · intro c hc
      rw [List.singleton_append, List.mem_cons, List.mem_append] at hc
      rcases hc with rfl | hc | hc
      · rfl
      · rw [(List.mem_replicate.mp hc).2]
        rfl
      · exact hdigits c hc
    · rw [List.length_append, List.length_replicate]
      omega
    · rw [← List.append_assoc, ← List.replicate_one, List.replicate_append_replicate,
        foldDigits?_zeros, foldDigits?_toDigits]

theorem not_mem_of_isDigit {c : Char} {cs : List Char} (h : ∀ c ∈ cs, c.isDigit = true)
    (hc : c.isDigit = false) : c ∉ cs := by
  intro hmem
  rw [h c hmem] at hc
  cases hc

theorem positional_inj (h : d.power < 0) (k : other.power < 0)
    (heq : positional "" d = positional "" other) : d = other := by
  obtain ⟨front, back, htext, hdigits, hlength, hvalue⟩ := positional_point h
  obtain ⟨front', back', htext', hdigits', hlength', hvalue'⟩ := positional_point k
  rw [htext, htext'] at heq
  have hfront : '.' ∉ front := not_mem_of_isDigit (fun c hc => hdigits c (List.mem_append_left _ hc)) rfl
  have hback : '.' ∉ back := not_mem_of_isDigit (fun c hc => hdigits c (List.mem_append_right _ hc)) rfl
  obtain ⟨rfl, -, rfl⟩ := (List.append_cons_inj_of_notMem hfront hback).mp heq
  rw [hvalue] at hvalue'
  have hpower : d.power = other.power := by omega
  cases d
  cases other
  rw [Digits.mk.injEq]
  exact ⟨Option.some.inj hvalue', hpower⟩

/-! ## Whole numbers -/

variable {tie : Tie} {m : Nat} {e : Int}

/-- The number has no fraction. -/
def IsWhole (m : Nat) (e : Int) : Prop :=
  2 ^ (-e).toNat ∣ m * 2 ^ e.toNat

instance (m : Nat) (e : Int) : Decidable (IsWhole m e) :=
  inferInstanceAs (Decidable (_ ∣ _))

theorem isWhole_of_nonneg (h : 0 ≤ e) (m : Nat) : IsWhole m e := by
  rw [IsWhole, show (-e).toNat = 0 by omega, Nat.pow_zero]
  exact Nat.one_dvd _

theorem quarters_eq {n : Nat} (h : m * 2 ^ e.toNat = n * 2 ^ (-e).toNat) :
    4 * m * 2 ^ (e - 2).toNat = n * 2 ^ (-(e - 2)).toNat := by
  rcases Int.lt_or_le e 2 with hlt | hge
  · rcases Int.lt_or_le e 0 with hneg | hnonneg
    · rw [show (e - 2).toNat = 0 by omega, show (-(e - 2)).toNat = (-e).toNat + 2 by omega]
      rw [show e.toNat = 0 by omega] at h
      rw [Nat.pow_add, ← Nat.mul_assoc, ← h]
      omega
    · obtain rfl | rfl : e = 0 ∨ e = 1 := by omega
      · simp at h ⊢
        omega
      · simp at h ⊢
        omega
  · obtain ⟨k, hk⟩ : ∃ k, e.toNat = k + 2 := ⟨e.toNat - 2, by omega⟩
    rw [show (e - 2).toNat = k by omega, show (-(e - 2)).toNat = 0 by omega]
    rw [hk, show (-e).toNat = 0 by omega, Nat.pow_add, Nat.pow_zero, Nat.mul_one] at h
    rw [Nat.pow_zero, Nat.mul_one, ← h, Nat.mul_assoc, Nat.mul_left_comm, Nat.mul_comm 4]

theorem bounds_low (m : Nat) (e : Int) : (bounds m e).1 ≤ 4 * m - 1 ∧ 4 * m - 2 ≤ (bounds m e).1 := by
  rw [bounds]
  split <;> simp only <;> omega

theorem readsBack_of_lt
    (hlow : (bounds m e).1 * 2 ^ (e - 2).toNat * 10 ^ (-d.power).toNat <
      d.digits * 2 ^ (-(e - 2)).toNat * 10 ^ d.power.toNat)
    (hhigh : d.digits * 2 ^ (-(e - 2)).toNat * 10 ^ d.power.toNat <
      (bounds m e).2 * 2 ^ (e - 2).toNat * 10 ^ (-d.power).toNat) : readsBack m e d = true := by
  simp only [readsBack, alignPowers, Nat.pow_eq]
  split
  · exact Bool.and_eq_true_iff.mpr ⟨decide_eq_true (Nat.le_of_lt hlow), decide_eq_true (Nat.le_of_lt hhigh)⟩
  · exact Bool.and_eq_true_iff.mpr ⟨decide_eq_true hlow, decide_eq_true hhigh⟩

theorem le_of_readsBack (h : readsBack m e d = true) :
    (bounds m e).1 * 2 ^ (e - 2).toNat * 10 ^ (-d.power).toNat ≤
        d.digits * 2 ^ (-(e - 2)).toNat * 10 ^ d.power.toNat ∧
      d.digits * 2 ^ (-(e - 2)).toNat * 10 ^ d.power.toNat ≤
        (bounds m e).2 * 2 ^ (e - 2).toNat * 10 ^ (-d.power).toNat := by
  simp only [readsBack, alignPowers, Nat.pow_eq] at h
  split at h
  · obtain ⟨hlow, hhigh⟩ := Bool.and_eq_true_iff.mp h
    exact ⟨of_decide_eq_true hlow, of_decide_eq_true hhigh⟩
  · obtain ⟨hlow, hhigh⟩ := Bool.and_eq_true_iff.mp h
    exact ⟨Nat.le_of_lt (of_decide_eq_true hlow), Nat.le_of_lt (of_decide_eq_true hhigh)⟩

theorem readsBack_of_eq {n : Nat} (hm : 0 < m) (h : m * 2 ^ e.toNat = n * 2 ^ (-e).toNat) :
    readsBack m e ⟨n, 0⟩ = true := by
  have hpos : 0 < 2 ^ (e - 2).toNat := Nat.two_pow_pos _
  refine readsBack_of_lt ?_ ?_
  · simp only [Int.neg_zero, Int.toNat_zero, Nat.pow_zero, Nat.mul_one, ← quarters_eq h]
    exact Nat.mul_lt_mul_of_pos_right (by have := (bounds_low m e).1; omega) hpos
  · simp only [Int.neg_zero, Int.toNat_zero, Nat.pow_zero, Nat.mul_one, ← quarters_eq h]
    exact Nat.mul_lt_mul_of_pos_right (Nat.lt_add_of_pos_right (by decide)) hpos

theorem isWhole_of_readsBack (he : e < 0) (hpower : 0 ≤ d.power) (h : readsBack m e d = true) :
    IsWhole m e := by
  obtain ⟨hlow, hhigh⟩ := le_of_readsBack h
  have hhigh' : (bounds m e).2 = 4 * m + 2 := rfl
  have hlow' := (bounds_low m e).2
  rw [show (e - 2).toNat = 0 by omega, show (-(e - 2)).toNat = (-e).toNat + 2 by omega,
    show (-d.power).toNat = 0 by omega] at hlow hhigh
  rw [IsWhole, show e.toNat = 0 by omega]
  refine ⟨d.digits * 10 ^ d.power.toNat, ?_⟩
  have hquarter : d.digits * 2 ^ ((-e).toNat + 2) * 10 ^ d.power.toNat =
      4 * (2 ^ (-e).toNat * (d.digits * 10 ^ d.power.toNat)) := by
    ring
  rw [hquarter, Nat.pow_zero, Nat.pow_zero, Nat.mul_one, Nat.mul_one] at hlow hhigh
  rw [Nat.pow_zero, Nat.mul_one]
  omega

theorem power_onGrid {power : Int} (h : onGrid tie m e power = some d) :
    d.power = power ∧ readsBack m e d = true := by
  have either {above below : Digits} (habove : above.power = power ∧ readsBack m e above = true)
      (hbelow : below.power = power ∧ readsBack m e below = true) (upward : Bool) :
      (if upward then above else below).power = power ∧
        readsBack m e (if upward then above else below) = true := by
    cases upward <;> assumption
  simp only [onGrid] at h
  split at h
  · cases h
  · rename_i hbelow _
    obtain rfl := Option.some.inj h
    exact ⟨rfl, hbelow⟩
  · rename_i _ habove
    obtain rfl := Option.some.inj h
    exact ⟨rfl, habove⟩
  · rename_i hbelow habove
    rw [← Option.some.inj h]
    exact either ⟨rfl, habove⟩ ⟨rfl, hbelow⟩ _

theorem onGrid_zero_isSome (tie : Tie) (hm : 0 < m) (h : IsWhole m e) : (onGrid tie m e 0).isSome = true := by
  obtain ⟨n, hn⟩ := h
  rw [Nat.mul_comm _ n] at hn
  have hback := readsBack_of_eq hm hn
  have hdigits : (alignPowers m e 1 0).1 / (alignPowers m e 1 0).2 = n := by
    simp only [alignPowers, Nat.pow_eq, Int.neg_zero, Int.toNat_zero, Nat.pow_zero, Nat.mul_one,
      Nat.one_mul, hn]
    exact Nat.mul_div_cancel n (Nat.two_pow_pos _)
  simp only [onGrid]
  rw [hdigits, hback]
  split <;> simp_all

theorem power_searchGrids_nonneg (hm : 0 < m) (h : IsWhole m e) (steps : Nat) {power : Int}
    (hpower : 0 ≤ power) : 0 ≤ (searchGrids tie m e steps power).power := by
  induction steps generalizing power with
  | zero => exact hpower
  | succ steps ih =>
    rw [searchGrids]
    cases hgrid : onGrid tie m e power with
    | some d => exact (power_onGrid hgrid).1 ▸ hpower
    | none =>
      rw [Option.getD_none]
      refine ih ?_
      -- the grid of the whole numbers has an answer
      have hne : power ≠ 0 := by
        rintro rfl
        have hsome := onGrid_zero_isSome tie hm h
        rw [hgrid] at hsome
        cases hsome
      omega

theorem power_searchGrids_neg (he : e < 0) (h : ¬ IsWhole m e) {steps : Nat} {power : Int}
    (hpower : power < steps) : (searchGrids tie m e steps power).power < 0 := by
  induction steps generalizing power with
  | zero => exact hpower
  | succ steps ih =>
    rw [searchGrids]
    cases hgrid : onGrid tie m e power with
    | some d =>
      obtain ⟨-, hback⟩ := power_onGrid hgrid
      rw [Option.getD_some]
      exact Int.not_le.mp fun hnonneg => h (isWhole_of_readsBack he hnonneg hback)
    | none =>
      rw [Option.getD_none]
      exact ih (by omega)

theorem power_shortest_nonneg_iff (tie : Tie) (hm : 0 < m) (hlt : m < 2 * minMantissa) :
    0 ≤ (shortest tie m e).power ↔ IsWhole m e := by
  have hlog : Nat.log2 m < 53 := (Nat.log2_lt (Nat.ne_of_gt hm)).mpr hlt
  constructor
  · intro hpower
    rcases Int.lt_or_le e 0 with he | he
    · by_contra hnot
      have habove : powerAbove m e < 24 := by
        rw [powerAbove]
        omega
      exact Int.not_lt.mpr hpower (power_searchGrids_neg he hnot habove)
    · exact isWhole_of_nonneg he m
  · intro h
    refine power_searchGrids_nonneg hm h 24 ?_
    have hsize : 0 ≤ (Nat.log2 m : Int) + 1 + e := by
      rcases Int.lt_or_le e 0 with he | he
      · rw [IsWhole, show e.toNat = 0 by omega, Nat.pow_zero, Nat.mul_one] at h
        have hle := (Nat.le_log2 (Nat.ne_of_gt hm)).mpr (Nat.le_of_dvd hm h)
        omega
      · omega
    rw [powerAbove]
    omega

/-! ## Equal texts -/

variable {negative : Bool}

/-- The number of digits in front of the point. -/
def Digits.places (d : Digits) : Int :=
  (Nat.toDigits 10 d.digits).length + d.power

theorem plainText_of_pos (hm : 0 < m) :
    plainText (.finite negative m e) = sign negative ++ positional "" (shortest .up m e) := by
  cases m with
  | zero => cases hm
  | succ m => rfl

theorem markedText_of_pos (hm : 0 < m) :
    markedText (.finite negative m e) = sign negative ++
      if -5 < (shortest .even m e).places && (shortest .even m e).places ≤ 16 then
        positional ".0" (shortest .even m e)
      else scientific (shortest .even m e) := by
  cases m with
  | zero => cases hm
  | succ m => rfl

theorem mem_scientific (d : Digits) : 'e' ∈ scientific d :=
  List.mem_append_right _ List.mem_cons_self

theorem not_mem_positional (d : Digits) : 'e' ∉ positional "" d := by
  rcases Int.lt_or_le d.power 0 with h | h
  · obtain ⟨front, back, htext, hdigits, -⟩ := positional_point h
    intro hmem
    rw [htext, List.mem_append, List.mem_cons] at hmem
    rcases hmem with hmem | hmem | hmem
    · cases hdigits _ (List.mem_append_left _ hmem)
    · cases hmem
    · cases hdigits _ (List.mem_append_right _ hmem)
  · exact not_mem_of_isDigit (isDigit_of_mem_positional h) rfl

/-- The two texts of a number agree exactly if it is not whole, it has one shortest decimal, and it is
not so large or small that a document would show it with an exponent. -/
theorem plainText_eq_markedText_iff (hlt : m < 2 * minMantissa) :
    plainText (.finite negative m e) = markedText (.finite negative m e) ↔
      ¬ IsWhole m e ∧ shortest .up m e = shortest .even m e ∧
        -5 < (shortest .even m e).places ∧ (shortest .even m e).places ≤ 16 := by
  rcases Nat.eq_zero_or_pos m with rfl | hm
  · have hwhole : IsWhole 0 e := by simp [IsWhole]
    simp [hwhole, plainText, markedText]
  have hup := power_shortest_nonneg_iff .up (e := e) hm hlt
  have heven := power_shortest_nonneg_iff .even (e := e) hm hlt
  rw [plainText_of_pos hm, markedText_of_pos hm, List.append_cancel_left_eq]
  split <;> rename_i hplaces <;> rw [Bool.and_eq_true, decide_eq_true_eq, decide_eq_true_eq] at hplaces
  · by_cases hwhole : IsWhole m e
    · -- one text has digits only, the other one a point
      have hpoint : '.' ∈ positional ".0" (shortest .even m e) := by
        rw [positional_of_nonneg (heven.mpr hwhole)]
        exact List.mem_append_right _ List.mem_cons_self
      simp only [hwhole, not_true_eq_false, false_and, iff_false]
      intro heq
      exact not_mem_of_isDigit (isDigit_of_mem_positional (hup.mpr hwhole)) rfl (heq ▸ hpoint)
    · have hupNeg := Int.not_le.mp (mt hup.mp hwhole)
      have hevenNeg := Int.not_le.mp (mt heven.mp hwhole)
      rw [positional_of_neg hevenNeg]
      simp only [hwhole, hplaces, not_false_eq_true, true_and, and_true]
      exact ⟨positional_inj hupNeg hevenNeg, congrArg _⟩
  · simp only [hplaces, and_false, iff_false]
    intro heq
    exact not_mem_positional _ (heq ▸ mem_scientific _)

theorem plainText_eq_toDigits_iff {x : Double} {n : Nat} (hn : 0 < n) :
    plainText x = Nat.toDigits 10 n ↔ ∃ m e, x = .finite false m e ∧ 0 < m ∧
      0 ≤ (shortest .up m e).power ∧
        (shortest .up m e).digits * 10 ^ (shortest .up m e).power.toNat = n := by
  constructor
  · intro h
    have hdigits : ∀ c ∈ plainText x, c.isDigit = true := fun c hc => isDigit_of_mem_toDigits (h ▸ hc)
    have hvalue : foldDigits? 10 0 (plainText x) = some n := h ▸ foldDigits?_toDigits n
    match x with
    | .nan => cases hdigits 'N' (by decide)
    | .infinite negative => cases hdigits 'i' (List.mem_append_right _ (by decide))
    | .finite true m e => cases m <;> cases hdigits '-' List.mem_cons_self
    | .finite false 0 e => exact absurd (Option.some.inj hvalue) (Nat.ne_of_lt hn)
    | .finite false (m + 1) e =>
      refine ⟨m + 1, e, rfl, Nat.succ_pos m, ?_⟩
      change foldDigits? 10 0 (positional "" (shortest .up (m + 1) e)) = some n at hvalue
      have hpower : 0 ≤ (shortest .up (m + 1) e).power := by
        by_contra hneg
        obtain ⟨front, back, htext, -⟩ := positional_point (Int.not_le.mp hneg)
        have hpoint : '.' ∈ positional "" (shortest .up (m + 1) e) := by
          rw [htext]
          exact List.mem_append_right _ List.mem_cons_self
        cases hdigits '.' hpoint
      rw [foldDigits?_positional hpower] at hvalue
      exact ⟨hpower, Option.some.inj hvalue⟩
  · rintro ⟨m, e, rfl, hm, hpower, rfl⟩
    have hpos := Nat.pos_of_mul_pos_right hn
    rw [plainText_of_pos hm, positional_of_nonneg hpower, toDigits_mul_pow hpos]
    simp [sign]

end Double

end ZoneScript
