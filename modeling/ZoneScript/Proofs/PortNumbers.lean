import ZoneScript.Lexical
import ZoneScript.Proofs.Continuations
import ZoneScript.Proofs.Fragments
import ZoneScript.Proofs.Ports

/-!
# Ports that are accepted

A port is a decimal number from 1 to 65535, a range two of them with a dash between, the second one not
smaller. White space around a number and a plus sign in front of it do not count, and nothing else is
accepted.
-/

namespace ZoneScript

namespace Text

/-! ## Decimal numbers -/

theorem digitValue?_eq_some {c : Char} {d : Nat} :
    digitValue? 10 c = some d ↔ c.isDigit = true ∧ c.toNat - '0'.toNat = d := by
  rw [digitValue?]
  by_cases hdigit : c.isDigit = true
  · have hlt : c.toNat - '0'.toNat < 10 := by
      have hle := (Char.isDigit_iff_toNat.mp hdigit).2
      simp only [Char.reduceToNat] at hle ⊢
      omega
    simp only [hdigit, if_true, hlt, Option.some.injEq, true_and]
  · -- the letters have values from ten on
    refine iff_of_false ?_ fun h => hdigit h.1
    have hbase : ∀ value, 10 ≤ value → (if value < 10 then some value else none) ≠ some d :=
      fun value h => by simp [h.not_gt]
    rw [if_neg hdigit]
    refine hbase _ ?_
    split
    · omega
    · split <;> omega

theorem foldDigits?_eq_some {cs : List Char} {value n : Nat} :
    foldDigits? 10 value cs = some n ↔
      (∀ c ∈ cs, c.isDigit = true) ∧ Nat.ofDigitChars 10 cs value = n := by
  induction cs generalizing value with
  | nil => simp [foldDigits?]
  | cons c cs ih =>
    simp only [foldDigits?, Option.bind_eq_some_iff, digitValue?_eq_some, ih, List.forall_mem_cons,
      Nat.ofDigitChars_cons, Nat.mul_comm value]
    constructor
    · rintro ⟨d, ⟨hdigit, rfl⟩, hdigits, hvalue⟩
      exact ⟨⟨hdigit, hdigits⟩, hvalue⟩
    · rintro ⟨⟨hdigit, hdigits⟩, hvalue⟩
      exact ⟨_, ⟨hdigit, rfl⟩, hdigits, hvalue⟩

theorem readNat?_eq_some {cs : List Char} {n : Nat} :
    readNat? 10 cs = some n ↔
      cs ≠ [] ∧ (∀ c ∈ cs, c.isDigit = true) ∧ Nat.ofDigitChars 10 cs 0 = n := by
  cases cs with
  | nil => simp [readNat?]
  | cons c cs => simp [readNat?, foldDigits?_eq_some]

theorem readPositive?_eq_some {cs : List Char} {n : Nat} :
    readPositive? 10 cs = some n ↔
      ∃ sign digits, (sign = [] ∨ sign = ['+']) ∧ readNat? 10 digits = some n ∧ cs = sign ++ digits := by
  rw [readPositive?.eq_def]
  split
  · rename_i digits
    refine ⟨fun h => ⟨['+'], digits, .inr rfl, h, rfl⟩, ?_⟩
    rintro ⟨sign, rest, rfl | rfl, h, heq⟩
    · -- a plus sign is no digit
      obtain ⟨-, hdigits, -⟩ := readNat?_eq_some.mp h
      exact absurd (hdigits '+' (List.nil_append rest ▸ heq ▸ List.mem_cons_self)) (by decide)
    · rwa [(List.cons.inj heq).2]
  · rename_i hplus
    refine ⟨fun h => ⟨[], cs, .inl rfl, h, rfl⟩, ?_⟩
    rintro ⟨sign, digits, rfl | rfl, h, rfl⟩
    · exact h
    · exact absurd rfl (hplus digits)

end Text

namespace Lexical

open Text

/-! ## Ports -/

/-- Decimal digits that write a port. -/
structure IsPort (cs : List Char) (n : Nat) : Prop where
  nonempty : cs ≠ []
  digits : ∀ c ∈ cs, c.isDigit = true
  value : Nat.ofDigitChars 10 cs 0 = n
  pos : 1 ≤ n
  le : n ≤ 65535

/-- A port with white space on both sides, and with or without a plus sign. -/
inductive IsPaddedPort : List Char → Nat → Prop
  | padded {before sign digits after : List Char} {n : Nat} (hbefore : ∀ c ∈ before, isSpace c = true)
      (hsign : sign = [] ∨ sign = ['+']) (h : IsPort digits n)
      (hafter : ∀ c ∈ after, isSpace c = true) :
      IsPaddedPort (before ++ (sign ++ digits ++ after)) n

theorem isSpace_of_isDigit {c : Char} (h : c.isDigit = true) : isSpace c = false := by
  apply Shell.isSpace_of_isPlain
  apply Shell.isPlain_of_isBare
  simp [Shell.isBare, Char.isAlphanum, h]

theorem port_eq_ok {n m : Nat} : port n = .ok m ↔ 1 ≤ n ∧ n = m := by
  rw [port]
  split
  · simp; omega
  · simp; omega

theorem portNumber_eq_ok {cs : List Char} {n : Nat} :
    portNumber cs = .ok n ↔ readPositive? 10 (trim cs) = some n ∧ n ≤ 65535 := by
  have hfits : fitsUnsigned 16 n = true ↔ n ≤ 65535 := by
    simp [fitsUnsigned]
    omega
  rw [portNumber, readUnsigned?, ← hfits, ← Option.filter_eq_some_iff]
  cases (readPositive? 10 (trim cs)).filter (fitsUnsigned 16) <;> simp

theorem isPaddedPort_iff {cs : List Char} {n : Nat} :
    IsPaddedPort cs n ↔ portNumber cs = .ok n ∧ 1 ≤ n := by
  constructor
  · rintro @⟨before, sign, digits, after, n, hbefore, hsign, h, hafter⟩
    have hinner : ∀ c ∈ sign ++ digits, isSpace c = false := by
      refine List.forall_mem_append.mpr ⟨?_, fun c hc => isSpace_of_isDigit (h.digits c hc)⟩
      rcases hsign with rfl | rfl
      · exact List.forall_mem_nil _
      · exact List.forall_mem_singleton.mpr rfl
    rw [portNumber_eq_ok, trim_append_append hbefore hinner hafter, readPositive?_eq_some]
    exact ⟨⟨⟨sign, digits, hsign, readNat?_eq_some.mpr ⟨h.nonempty, h.digits, h.value⟩, rfl⟩, h.le⟩,
      h.pos⟩
  · rintro ⟨hread, hpos⟩
    obtain ⟨hnumber, hle⟩ := portNumber_eq_ok.mp hread
    obtain ⟨sign, digits, hsign, hdigits, hinner⟩ := readPositive?_eq_some.mp hnumber
    obtain ⟨hne, hall, hvalue⟩ := readNat?_eq_some.mp hdigits
    obtain ⟨before, after, hbefore, hafter, hcs⟩ := exists_eq_trim cs
    rw [hcs, hinner]
    exact .padded hbefore hsign ⟨hne, hall, hvalue, hpos, hle⟩ hafter

theorem portRange_eq_ok {m n first last : Nat} :
    portRange m n = .ok (first, last) ↔ 1 ≤ m ∧ 1 ≤ n ∧ m ≤ n ∧ m = first ∧ n = last := by
  simp only [portRange, Script.bind_eq_ok, port_eq_ok]
  constructor
  · rintro ⟨_, ⟨hm, -⟩, _, ⟨hn, -⟩, h⟩
    split at h
    · cases h
    · cases h
      exact ⟨hm, hn, by omega, rfl, rfl⟩
  · rintro ⟨hm, hn, hle, rfl, rfl⟩
    exact ⟨m, ⟨hm, rfl⟩, n, ⟨hn, rfl⟩, if_neg (by omega)⟩

theorem IsPaddedPort.not_mem {cs : List Char} {n : Nat} (h : IsPaddedPort cs n) : '-' ∉ cs := by
  obtain @⟨before, sign, digits, after, n, hbefore, hsign, h, hafter⟩ := h
  simp only [List.mem_append, not_or]
  refine ⟨fun hmem => ?_, ⟨?_, fun hmem => ?_⟩, fun hmem => ?_⟩
  · exact absurd (hbefore _ hmem) (by decide)
  · rcases hsign with rfl | rfl <;> decide
  · exact absurd (h.digits _ hmem) (by decide)
  · exact absurd (hafter _ hmem) (by decide)

/-- One port, or two with a dash between them that do not run backwards. -/
def IsSpecOf (writes : List Char → Nat → Prop) (text : String) (first last : Nat) : Prop :=
  (writes text.toList first ∧ last = first) ∨
    ∃ left right, text.toList = left ++ '-' :: right ∧ writes left first ∧ writes right last ∧
      first ≤ last

/-- **Ports.** A text is accepted as a port or a range of ports if and only if it is one port, or two
with a dash between them that do not run backwards. White space around a port and a plus sign in front
of it do not count. -/
theorem portSpec_eq_ok_iff (text : String) (first last : Nat) :
    portSpec text = .ok (first, last) ↔ IsSpecOf IsPaddedPort text first last := by
  rw [portSpec, IsSpecOf]
  cases hsplit : splitFirst '-' text.toList with
  | none =>
    have hdash : '-' ∉ text.toList := splitFirst_eq_none.mp hsplit
    have hrange : ¬ ∃ left right, text.toList = left ++ '-' :: right ∧ IsPaddedPort left first ∧
        IsPaddedPort right last ∧ first ≤ last := by
      rintro ⟨left, right, h, -⟩
      exact hdash (by simp [h])
    rw [or_iff_left hrange, isPaddedPort_iff]
    simp only [Script.bind_eq_ok, port_eq_ok]
    constructor
    · rintro ⟨n, hread, m, ⟨hpos, rfl⟩, h⟩
      obtain ⟨rfl, rfl⟩ := Prod.mk.inj (Except.ok.inj h)
      exact ⟨⟨hread, hpos⟩, rfl⟩
    · rintro ⟨⟨hread, hpos⟩, rfl⟩
      exact ⟨last, hread, last, ⟨hpos, rfl⟩, rfl⟩
  | some parts =>
    obtain ⟨left, right⟩ := parts
    obtain ⟨htext, hleft⟩ := splitFirst_eq_some.mp hsplit
    have hone : ¬ (IsPaddedPort text.toList first ∧ last = first) := by
      rintro ⟨h, -⟩
      exact h.not_mem (by simp [htext])
    rw [or_iff_right hone]
    simp only [Script.bind_eq_ok, portRange_eq_ok]
    constructor
    · rintro ⟨m, hm, n, hn, hmpos, hnpos, hle, rfl, rfl⟩
      exact ⟨left, right, htext, isPaddedPort_iff.mpr ⟨hm, hmpos⟩, isPaddedPort_iff.mpr ⟨hn, hnpos⟩, hle⟩
    · rintro ⟨left', right', htext', hfirst, hlast, hle⟩
      -- a port has no dash in it, so the first dash is the one between them
      have hcut := splitFirst_eq_some.mpr ⟨htext', hfirst.not_mem⟩
      obtain ⟨rfl, rfl⟩ := Prod.mk.inj (Option.some.inj (hsplit.symm.trans hcut))
      obtain ⟨hm, hmpos⟩ := isPaddedPort_iff.mp hfirst
      obtain ⟨hn, hnpos⟩ := isPaddedPort_iff.mp hlast
      exact ⟨first, hm, last, hn, hmpos, hnpos, hle, rfl, rfl⟩

theorem IsSpecOf.isDigit_head? {text : String} {first last : Nat} (h : IsSpecOf IsPort text first last) :
    ∀ c ∈ text.toList.head?, c.isDigit = true := by
  have hport {cs rest : List Char} {n : Nat} (h : IsPort cs n) :
      ∀ c ∈ (cs ++ rest).head?, c.isDigit = true := by
    obtain ⟨d, ds, rfl⟩ := List.exists_cons_of_ne_nil h.nonempty
    rintro _ ⟨⟩
    exact h.digits d List.mem_cons_self
  rcases h with ⟨h, -⟩ | ⟨left, right, htext, h, -⟩
  · rw [← List.append_nil text.toList]
    exact hport h
  · rw [htext]
    exact hport h

/-- Digits alone are not all that is accepted: white space may stand around them, and a plus sign in
front. -/
theorem portSpec_accepts_padding :
    (portSpec " 22" = .ok (22, 22) ∧ ¬ IsSpecOf IsPort " 22" 22 22) ∧
      portSpec "+80 - 443" = .ok (80, 443) ∧ ¬ IsSpecOf IsPort "+80 - 443" 80 443 := by
  refine ⟨⟨by decide, fun h => ?_⟩, by decide, fun h => ?_⟩
  · exact absurd (h.isDigit_head? ' ' rfl) (by decide)
  · exact absurd (h.isDigit_head? '+' rfl) (by decide)

end Lexical

end ZoneScript
