import ZoneScript.Proofs.NumberTexts
import ZoneScript.Proofs.Records

/-!
# What is checked and what is stored

The text of a scalar in a document is looked at, and the text that it stands for is stored. They are the
same for texts, booleans and integers, up to the integers that do not fit 64 bits with a sign, and for
fractions that are neither too large nor too small and have one shortest decimal.
-/

namespace ZoneScript

open Node Double

/-- A text, a boolean, an integer of 64 bits with or without a sign, or a number of double precision. -/
inductive Node.IsScalar : Node → Prop
  | str (s : String) : IsScalar (.str s)
  | bool (b : Bool) : IsScalar (.bool b)
  | int {n : Int} (h : Text.fitsBits 64 n = true) : IsScalar (.int n)
  | float (negative : Bool) {m : Nat} {e : Int} (h : m < 2 * minMantissa) :
      IsScalar (.float (.finite negative m e))

/-- A scalar that is stored as it is shown in the document. -/
inductive Node.HasOneText : Node → Prop
  | str (s : String) : HasOneText (.str s)
  | bool (b : Bool) : HasOneText (.bool b)
  | int {n : Int} (h : Text.fitsSigned 64 n = true) : HasOneText (.int n)
  /-- The nearest number has this integer for its shortest decimal. -/
  | large {n m : Nat} {e : Int} (hdouble : Double.ofInt n = .finite false m e) (hm : 0 < m)
      (hpower : 0 ≤ (shortest .up m e).power)
      (hvalue : (shortest .up m e).digits * 10 ^ (shortest .up m e).power.toNat = n) :
      HasOneText (.int n)
  /-- There is a fraction, one shortest decimal, and no need for an exponent. -/
  | fraction (negative : Bool) {m : Nat} {e : Int} (hwhole : ¬ IsWhole m e)
      (hties : shortest .up m e = shortest .even m e)
      (hlow : -5 < (shortest .even m e).places) (hhigh : (shortest .even m e).places ≤ 16) :
      HasOneText (.float (.finite negative m e))

theorem hasOneText_large_iff {n : Nat} (h : Text.fitsSigned 64 n = false) :
    HasOneText (.int n) ↔ Node.intText n = .ofList (Double.ofInt n).plainText := by
  have hn : 0 < n := Nat.pos_of_ne_zero (by rintro rfl; cases h)
  have hdigits : Node.intText n = .ofList (Nat.toDigits 10 n) := rfl
  rw [hdigits, String.ofList_inj, eq_comm, plainText_eq_toDigits_iff hn]
  constructor
  · intro hone
    generalize hk : (n : Int) = k at hone
    cases hone with
    | int hsigned =>
      rw [← hk, h] at hsigned
      cases hsigned
    | large hdouble hm hpower hvalue =>
      obtain rfl := Int.ofNat.inj hk
      exact ⟨_, _, hdouble, hm, hpower, hvalue⟩
  · rintro ⟨m, e, hdouble, hm, hpower, hvalue⟩
    exact .large hdouble hm hpower hvalue

/-- **Checked and stored texts.** A scalar has a text that is checked and a text that is stored, and they
are the same if and only if it is a text, a boolean, an integer that fits 64 bits with a sign or is the
shortest decimal of the nearest number, or a fraction with one shortest decimal that is written without an
exponent. -/
theorem Node.checked_eq_stored_iff {node : Node} (h : node.IsScalar) :
    ∃ checked stored, node.scalarText? = some checked ∧ Decode.scalar node = .ok stored ∧
      (checked = stored ↔ node.HasOneText) := by
  cases h with
  | str s => exact ⟨s, s, rfl, rfl, iff_of_true rfl (.str s)⟩
  | bool b => exact ⟨_, _, rfl, rfl, iff_of_true rfl (.bool b)⟩
  | @float negative m e hm =>
    refine ⟨_, _, rfl, rfl, ?_⟩
    rw [String.ofList_inj, eq_comm, plainText_eq_markedText_iff hm]
    constructor
    · rintro ⟨hwhole, hties, hlow, hhigh⟩
      exact .fraction negative hwhole hties hlow hhigh
    · intro h
      cases h with
      | fraction _ hwhole hties hlow hhigh => exact ⟨hwhole, hties, hlow, hhigh⟩
  | @int n hn =>
    refine ⟨_, _, rfl, rfl, ?_⟩
    cases hsigned : Text.fitsSigned 64 n with
    | true => exact iff_of_true (if_pos rfl).symm (.int hsigned)
    | false =>
      rw [if_neg Bool.false_ne_true]
      match n with
      | .ofNat n => exact (hasOneText_large_iff hsigned).symm
      | .negSucc n => simp [Text.fitsBits, hsigned] at hn

/-- A half, and ten to the nineteenth, which does not fit 64 bits with a sign. -/
theorem Node.checked_eq_stored_half :
    let half := Node.float (.finite false minMantissa (-53))
    let large := Node.int 10000000000000000000
    half.HasOneText ∧ large.HasOneText ∧
      (∃ text, half.scalarText? = some text ∧ Decode.scalar half = .ok text) ∧
      ∃ text, large.scalarText? = some text ∧ Decode.scalar large = .ok text := by
  intro half large
  have hhalf : half.HasOneText :=
    .fraction false (by decide +kernel) (by decide +kernel) (by decide +kernel) (by decide +kernel)
  have hdouble : Double.ofInt (10000000000000000000 : Nat) = .finite false 4882812500000000 11 := by
    decide +kernel
  have hlarge : large.HasOneText :=
    .large hdouble (by decide) (by decide +kernel) (by decide +kernel)
  refine ⟨hhalf, hlarge, ?_, ?_⟩
  · obtain ⟨checked, stored, hchecked, hstored, hone⟩ :=
      Node.checked_eq_stored_iff (.float false (m := minMantissa) (e := -53) (by decide))
    exact ⟨checked, hchecked, hone.mpr hhalf ▸ hstored⟩
  · obtain ⟨checked, stored, hchecked, hstored, hone⟩ :=
      Node.checked_eq_stored_iff (.int (n := 10000000000000000000) (by decide))
    exact ⟨checked, hchecked, hone.mpr hlarge ▸ hstored⟩

/-- A number that is shown with an exponent, a whole one, one with two shortest decimals, and an integer
that needs all of the 64 bits. The first one passes for the name of an interface and is stored as none. -/
theorem Node.checked_ne_stored :
    let exponent := Node.float (.finite false 5000000000000000 1)
    let whole := Node.float (.finite false 4503599627370496 (-52))
    let tied := Node.float (.finite false 4503599631564800 (-33))
    let large := Node.int 9223372036854775808
    exponent.IsScalar ∧ whole.IsScalar ∧ tied.IsScalar ∧ large.IsScalar ∧
      (exponent.scalarText? = some "1e16" ∧ Decode.scalar exponent = .ok "10000000000000000") ∧
      (whole.scalarText? = some "1.0" ∧ Decode.scalar whole = .ok "1") ∧
      (tied.scalarText? = some "524288.0004882812" ∧ Decode.scalar tied = .ok "524288.0004882813") ∧
      (large.scalarText? = some "9223372036854775808" ∧
        Decode.scalar large = .ok "9223372036854776000") ∧
      Lexical.interface "1e16" = .ok () ∧
      Lexical.interface "10000000000000000" = .error .longInterface := by
  exact ⟨.float false (by decide), .float false (by decide), .float false (by decide), .int (by decide),
    ⟨by decide +kernel, Decode.shaped_of_isJson (.float _) (by decide +kernel)⟩,
    ⟨by decide +kernel, Decode.shaped_of_isJson (.float _) (by decide +kernel)⟩,
    ⟨by decide +kernel, Decode.shaped_of_isJson (.float _) (by decide +kernel)⟩,
    ⟨by decide +kernel, Decode.shaped_of_isJson (.int _) (by decide +kernel)⟩,
    by decide +kernel, by decide +kernel⟩

end ZoneScript
