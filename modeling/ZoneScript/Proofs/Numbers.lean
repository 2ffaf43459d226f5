import ZoneScript.Text.Integer

/-!
# Integers that are read back

The decimal text of an integer is read as that integer, if it fits the bits it is read into.
-/

namespace ZoneScript.Text

theorem isDigit_of_mem_toDigits {c : Char} {n : Nat} (h : c ∈ Nat.toDigits 10 n) : c.isDigit = true :=
  Nat.isDigit_of_mem_toDigits (by decide) (by decide) h

theorem not_mem_toDigits {c : Char} (hc : c.isDigit = false) (n : Nat) : c ∉ Nat.toDigits 10 n := by
  intro h
  rw [isDigit_of_mem_toDigits h] at hc
  cases hc

theorem head?_toDigits_ne {n : Nat} (h : n ≠ 0) : (Nat.toDigits 10 n).head? ≠ some '0' := by
  induction n using Nat.strongRecOn with
  | ind n ih =>
    rw [Nat.toDigits_eq_if (by decide)]
    split
    · rename_i hlt
      have hall : ∀ d : Fin 10, d.val ≠ 0 → d.val.digitChar ≠ '0' := by decide
      simpa using hall ⟨n, hlt⟩ h
    · have htail := ih (n / 10) (by omega) (by omega)
      obtain ⟨c, cs, hcons⟩ := List.exists_cons_of_ne_nil (Nat.toDigits_ne_nil (n := n / 10) (b := 10))
      rw [hcons] at htail ⊢
      exact htail

theorem digitValue?_digitChar {d : Nat} (h : d < 10) : digitValue? 10 d.digitChar = some d := by
  have all : ∀ d : Fin 10, digitValue? 10 d.val.digitChar = some d.val := by decide
  exact all ⟨d, h⟩

theorem foldDigits?_append (base value : Nat) (cs ds : List Char) :
    foldDigits? base value (cs ++ ds) =
      (foldDigits? base value cs).bind fun n => foldDigits? base n ds := by
  induction cs generalizing value with
  | nil => rfl
  | cons c cs ih =>
    rw [List.cons_append, foldDigits?, foldDigits?]
    cases digitValue? base c with
    | none => rfl
    | some d => exact ih _

theorem foldDigits?_toDigits (n : Nat) : foldDigits? 10 0 (Nat.toDigits 10 n) = some n := by
  induction n using Nat.strongRecOn with
  | ind n ih =>
    rw [Nat.toDigits_eq_if (by decide)]
    split
    · rename_i h
      simp [foldDigits?, digitValue?_digitChar h]
    · rename_i h
      rw [foldDigits?_append, ih (n / 10) (by omega)]
      simp only [Option.bind_some, foldDigits?, digitValue?_digitChar (Nat.mod_lt n (by decide))]
      congr 1
      omega

theorem readNat?_toDigits (n : Nat) : readNat? 10 (Nat.toDigits 10 n) = some n := by
  obtain ⟨c, cs, h⟩ := List.exists_cons_of_ne_nil (Nat.toDigits_ne_nil (n := n) (b := 10))
  rw [← foldDigits?_toDigits n, h]
  rfl

theorem readPositive?_toDigits (n : Nat) : readPositive? 10 (Nat.toDigits 10 n) = some n := by
  -- A number does not start with a sign.
  rw [← readNat?_toDigits n, readPositive?.eq_def]
  split
  · rename_i cs h
    have hplus := Nat.isDigit_of_mem_toDigits (c := '+') (b := 10) (n := n) (by decide) (by decide)
    exact absurd (hplus (by simp [h])) (by decide)
  · rfl

theorem readInteger?_showInt (n : Int) : readInteger? 10 (showInt n) = some n := by
  cases n with
  | ofNat n =>
    rw [showInt, readInteger?.eq_def]
    split
    · rename_i cs h
      have hminus := Nat.isDigit_of_mem_toDigits (c := '-') (b := 10) (n := n) (by decide) (by decide)
      exact absurd (hminus (by simp [h])) (by decide)
    · rw [readPositive?_toDigits]
      rfl
  | negSucc n =>
    rw [showInt, readInteger?, readNat?_toDigits]
    rfl

theorem readSigned?_showInt {bits : Nat} {n : Int} (h : fitsSigned bits n = true) :
    readSigned? bits (showInt n) = some n := by
  rw [readSigned?, readInteger?_showInt]
  simp [h]

end ZoneScript.Text
