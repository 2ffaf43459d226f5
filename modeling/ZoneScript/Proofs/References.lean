import ZoneScript.Script.Call
import ZoneScript.Shell.Word

/-!
# References to shell variables in a line

A dollar sign starts a reference together with what follows it, as far as the bracket that closes it.
So a reference stays when more text comes around it, and text without a dollar sign and without a
closing bracket can be exchanged for other such text between two words.
-/

namespace ZoneScript.Script

open Shell

/-- Whether there is a reference to a shell variable in the text. -/
def HasReference (cs : List Char) : Prop :=
  (reference? cs).isSome = true

instance (cs : List Char) : Decidable (HasReference cs) :=
  inferInstanceAs (Decidable (_ = _))

/-- Whether a dollar sign in front of the text starts a reference. -/
def FollowsDollar : List Char → Prop
  | [] => False
  | c :: cs => (c = '\x7b' ∧ '\x7d' ∈ cs) ∨ (c = '(' ∧ ')' ∈ cs) ∨ isVariableStart c = true

theorem isSome_splitFirst {mark : Char} {cs : List Char} :
    (Text.splitFirst mark cs).isSome = true ↔ mark ∈ cs := by
  induction cs with
  | nil => simp [Text.splitFirst]
  | cons c cs ih =>
    by_cases h : c = mark
    · simp [Text.splitFirst, h]
    · simp [Text.splitFirst, h, ih, Ne.symm h]

theorem isSome_referenceAt? {c : Char} {cs : List Char} :
    (referenceAt? (c :: cs)).isSome = true ↔ c = '$' ∧ FollowsDollar cs := by
  cases cs with
  | nil => simp [referenceAt?, FollowsDollar]
  | cons d cs =>
    by_cases hc : c = '$'
    · subst hc
      have hbrace : isVariableStart '\x7b' = false := by decide
      have hround : isVariableStart '(' = false := by decide
      simp only [referenceAt?, FollowsDollar, beq_iff_eq, true_and]
      by_cases hd : d = '\x7b'
      · simp [hd, hbrace, isSome_splitFirst]
      · by_cases hd' : d = '('
        · simp [hd', hround, isSome_splitFirst]
        · by_cases hstart : isVariableStart d = true <;> simp [hd, hd', hstart]
    · simp [referenceAt?, hc]

theorem hasReference_cons {c : Char} {cs : List Char} :
    HasReference (c :: cs) ↔ c = '$' ∧ FollowsDollar cs ∨ HasReference cs := by
  rw [HasReference, reference?, Option.isSome_or, Bool.or_eq_true, isSome_referenceAt?]
  rfl

/-! ## More text around a reference -/

theorem FollowsDollar.append {cs : List Char} (h : FollowsDollar cs) (ds : List Char) :
    FollowsDollar (cs ++ ds) := by
  cases cs with
  | nil => exact h.elim
  | cons c cs =>
    rcases h with ⟨hc, hmem⟩ | ⟨hc, hmem⟩ | h
    · exact .inl ⟨hc, List.mem_append_left _ hmem⟩
    · exact .inr (.inl ⟨hc, List.mem_append_left _ hmem⟩)
    · exact .inr (.inr h)

theorem HasReference.append_right {cs : List Char} (h : HasReference cs) (ds : List Char) :
    HasReference (cs ++ ds) := by
  induction cs with
  | nil => cases h
  | cons c cs ih =>
    rw [List.cons_append, hasReference_cons]
    rcases hasReference_cons.mp h with ⟨hc, hfollows⟩ | h
    · exact .inl ⟨hc, hfollows.append ds⟩
    · exact .inr (ih h)

theorem HasReference.append_left {ds : List Char} (h : HasReference ds) (cs : List Char) :
    HasReference (cs ++ ds) := by
  induction cs with
  | nil => exact h
  | cons c cs ih => exact hasReference_cons.mpr (.inr ih)

theorem reference?_append {front : List Char} (h : '$' ∉ front) (cs : List Char) :
    reference? (front ++ cs) = reference? cs := by
  induction front with
  | nil => rfl
  | cons c front ih =>
    obtain ⟨hc, hfront⟩ := not_or.mp (mt List.mem_cons.mpr h)
    have hnone : referenceAt? (c :: (front ++ cs)) = none := by
      rw [← Option.not_isSome_iff_eq_none, isSome_referenceAt?]
      exact fun hand => hc hand.1.symm
    rw [List.cons_append, reference?, hnone, Option.none_or, ih hfront]

/-! ## Text that takes no part in a reference -/

/-- Text that neither starts nor ends a reference. -/
def isInert (cs : List Char) : Bool :=
  cs.all fun c => c != '$' && c != '\x7d' && c != ')'

theorem not_mem_of_isInert {cs : List Char} (h : isInert cs = true) :
    '$' ∉ cs ∧ '\x7d' ∉ cs ∧ ')' ∉ cs := by
  have hall := List.all_eq_true.mp h
  exact ⟨fun hmem => absurd (hall _ hmem) (by decide), fun hmem => absurd (hall _ hmem) (by decide),
    fun hmem => absurd (hall _ hmem) (by decide)⟩

theorem hasReference_blank_inert {inert : List Char} (h : isInert inert = true)
    (front back : List Char) :
    HasReference (front ++ ' ' :: (inert ++ back)) ↔ HasReference (front ++ ' ' :: back) := by
  obtain ⟨hdollar, hbrace, hround⟩ := not_mem_of_isInert h
  induction front with
  | nil =>
    rw [List.nil_append, List.nil_append, hasReference_cons, hasReference_cons, HasReference,
      HasReference, reference?_append hdollar]
    simp
  | cons c front ih =>
    -- a reference that starts in front is closed in front or behind, if it is
    have hfollows : FollowsDollar (front ++ ' ' :: (inert ++ back)) ↔
        FollowsDollar (front ++ ' ' :: back) := by
      have hblank : isVariableStart ' ' = false := by decide
      cases front with
      | nil => simp [FollowsDollar, hblank]
      | cons d front => simp [FollowsDollar, hbrace, hround]
    rw [List.cons_append, List.cons_append, hasReference_cons, hasReference_cons, ih, hfollows]

theorem hasReference_exchange {inert other : List Char} (h : isInert inert = true)
    (hother : isInert other = true) (front back : List Char) :
    HasReference (front ++ ' ' :: (inert ++ back)) ↔ HasReference (front ++ ' ' :: (other ++ back)) := by
  rw [hasReference_blank_inert h, hasReference_blank_inert hother]

/-! ## References in a quoted word -/

theorem mem_quoteBody {c : Char} {word : List Char} (h : c ∈ word) : c ∈ quoteBody word := by
  induction word with
  | nil => cases h
  | cons d word ih =>
    rw [quoteBody]
    rcases List.mem_cons.mp h with rfl | h
    · by_cases hc : c = '\'' <;> simp [hc]
    · split <;> simp [ih h]

theorem FollowsDollar.quoteBody {word : List Char} (h : FollowsDollar word) :
    FollowsDollar (quoteBody word) := by
  cases word with
  | nil => exact h.elim
  | cons c word =>
    have hquote : c ≠ '\'' := by
      rintro rfl
      simp only [FollowsDollar, Char.reduceEq, false_and, false_or] at h
      exact absurd h (by decide)
    rw [Shell.quoteBody, if_neg (by simpa using hquote)]
    rcases h with ⟨hc, hmem⟩ | ⟨hc, hmem⟩ | h
    · exact .inl ⟨hc, mem_quoteBody hmem⟩
    · exact .inr (.inl ⟨hc, mem_quoteBody hmem⟩)
    · exact .inr (.inr h)

theorem HasReference.quoteBody {word : List Char} (h : HasReference word) :
    HasReference (quoteBody word) := by
  induction word with
  | nil => exact h
  | cons c word ih =>
    rw [Shell.quoteBody]
    rcases hasReference_cons.mp h with ⟨rfl, hfollows⟩ | h
    · exact hasReference_cons.mpr (.inl ⟨rfl, hfollows.quoteBody⟩)
    · split
      · exact (ih h).append_left ['\'', '\\', '\'', '\'']
      · exact (ih h).append_left [c]

theorem HasReference.quoteList {word : List Char} (h : HasReference word) :
    HasReference (quoteList word) := by
  rw [Shell.quoteList]
  split
  · exact h
  · exact (h.quoteBody.append_right ['\'']).append_left ['\'']

end ZoneScript.Script
