import Mathlib.Data.List.Chain
import ZoneScript.Proofs.QuotedTexts

/-!
# Strings that survive folding

A JSON string is read as itself exactly if its unescaped line breaks are separators that no blank stands
beside. A next line becomes a line feed or a blank, and the blanks around a break are lost.
-/

namespace ZoneScript.Yaml

/-- A blank and a line break stand side by side. -/
def areFolded (c d : Char) : Bool :=
  (c == ' ' && isBareBreak d) || (isBareBreak c && d == ' ')

/-- The line breaks of a string are separators without blanks beside them. -/
structure KeepsBreaks (cs : List Char) : Prop where
  noNextLine : ∀ c ∈ cs, c.toNat ≠ 0x85
  noBlanks : cs.IsChain fun c d => areFolded c d = false

instance (cs : List Char) : Decidable (KeepsBreaks cs) :=
  decidable_of_iff (cs.all (·.toNat != 0x85) = true ∧ cs.IsChain fun c d => areFolded c d = false)
    ⟨fun h => ⟨by simpa using h.1, h.2⟩, fun h => ⟨by simpa using h.noNextLine, h.noBlanks⟩⟩

/-! ## Characters -/

theorem areFolded_self (c : Char) : areFolded c c = false := by
  by_cases h : c = ' '
  · rw [h]
    rfl
  · simp [areFolded, h]

theorem areFolded_of_isBareBreak {c d : Char} (hc : isBareBreak c = true) (hd : isBareBreak d = true) :
    areFolded c d = false := by
  have hne {c : Char} (h : isBareBreak c = true) : c ≠ ' ' := by
    rintro rfl
    cases h
  simp [areFolded, hne hc, hne hd]

theorem breakText_of_ne {c : Char} (hbreak : isBareBreak c = true) (hne : c.toNat ≠ 0x85) :
    breakText c = [c] := by
  refine if_pos ?_
  simpa [isBareBreak, hne] using hbreak

theorem length_breakText (c : Char) : (breakText c).length = 1 := by
  rw [breakText]
  split <;> rfl

/-! ## Gaps -/

namespace Gap

/-- The characters that a gap was made of. -/
def written : Gap → List Char
  | .none => []
  | .blanks text => text
  | .breaks first others => first ++ others

/-- A gap in front of which nothing was lost yet: blanks, or separators. -/
def IsWhole : Gap → Prop
  | .none => True
  | .blanks text => text ≠ [] ∧ ∀ c ∈ text, c = ' '
  | .breaks first others =>
    (∃ c, first = [c]) ∧ ∀ c ∈ first ++ others, isBareBreak c = true

theorem isWhole_none : IsWhole .none :=
  trivial

theorem mem_written_addBlank {c d : Char} {gap : Gap} (h : d ∈ (gap.addBlank c).written) :
    d ∈ gap.written ∨ d = c := by
  cases gap <;> simp_all [addBlank, written]

theorem mem_written_addBreak {d : Char} {text : List Char} {gap : Gap}
    (h : d ∈ (gap.addBreak text).written) : d ∈ gap.written ∨ d ∈ text := by
  cases gap <;> simp_all [addBreak, written, or_assoc]

theorem length_fold_le (gap : Gap) : gap.fold.length ≤ gap.written.length := by
  cases gap with
  | none | blanks => exact Nat.le_refl _
  | breaks first others =>
    rw [fold, written]
    split
    · rename_i hfirst
      obtain ⟨rest, rfl⟩ := List.head?_eq_some_iff.mp (beq_iff_eq.mp hfirst)
      split
      · simp
      · simp only [List.length_append]
        omega
    · exact Nat.le_refl _

theorem IsWhole.fold {gap : Gap} (h : gap.IsWhole) : gap.fold = gap.written := by
  cases gap with
  | none | blanks => rfl
  | breaks first others =>
    obtain ⟨⟨c, rfl⟩, hbreaks⟩ := h
    have hfeed : c ≠ '\n' := by
      rintro rfl
      exact absurd (hbreaks '\n' (by simp)) (by decide)
    simp [Gap.fold, written, hfeed]

theorem IsWhole.written_eq {gap : Gap} (h : gap.IsWhole) :
    (∀ c ∈ gap.written, c = ' ') ∨ ∀ c ∈ gap.written, isBareBreak c = true := by
  cases gap with
  | none => exact .inl (List.forall_mem_nil _)
  | blanks => exact .inl h.2
  | breaks => exact .inr h.2

theorem IsWhole.isChain {gap : Gap} (h : gap.IsWhole) :
    gap.written.IsChain fun c d => areFolded c d = false := by
  refine List.Pairwise.isChain (List.pairwise_of_forall_mem_list fun c hc d hd => ?_)
  rcases h.written_eq with hall | hall
  · rw [hall c hc, hall d hd]
    exact areFolded_self ' '
  · exact areFolded_of_isBareBreak (hall c hc) (hall d hd)

end Gap

/-! ## Folding -/

theorem length_refold_le (gap : Gap) (cs : List Char) :
    (refold gap cs).length ≤ gap.written.length + cs.length := by
  induction cs generalizing gap with
  | nil => simpa [refold] using gap.length_fold_le
  | cons c cs ih =>
    rw [refold]
    split
    · refine (ih _).trans ?_
      cases gap <;> simp [Gap.addBlank, Gap.written] <;> omega
    split
    · refine (ih _).trans ?_
      have := length_breakText c
      cases gap <;> simp [Gap.addBreak, Gap.written] <;> omega
    · have := gap.length_fold_le
      have := ih .none
      simp only [Gap.written, List.length_nil, List.length_append, List.length_cons] at *
      omega

theorem ne_nextLine_of_mem_refold {gap : Gap} (hgap : ∀ c ∈ gap.written, c.toNat ≠ 0x85) {cs : List Char} :
    ∀ c ∈ refold gap cs, c.toNat ≠ 0x85 := by
  have hfold (gap : Gap) (h : ∀ c ∈ gap.written, c.toNat ≠ 0x85) : ∀ c ∈ gap.fold, c.toNat ≠ 0x85 := by
    cases gap with
    | none | blanks => exact h
    | breaks first others =>
      obtain ⟨hfirst, hothers⟩ := List.forall_mem_append.mp h
      rw [Gap.fold]
      split
      · split
        · simp
        · exact hothers
      · exact h
  have hbreak (c : Char) : ∀ d ∈ breakText c, d.toNat ≠ 0x85 := by
    rw [breakText]
    split
    · rename_i h
      simp only [List.mem_singleton, forall_eq]
      intro heq
      simp [heq] at h
    · simp
  induction cs generalizing gap with
  | nil => exact hfold gap hgap
  | cons c cs ih =>
    rw [refold]
    split
    · rename_i hblank
      obtain rfl := beq_iff_eq.mp hblank
      refine ih fun d hd => (Gap.mem_written_addBlank hd).elim (hgap d) ?_
      rintro rfl
      decide
    split
    · exact ih fun d hd => (Gap.mem_written_addBreak hd).elim (hgap d) (hbreak c d)
    · rename_i hbare
      refine List.forall_mem_append.mpr ⟨hfold gap hgap, List.forall_mem_cons.mpr ⟨?_, ih (by simp [Gap.written])⟩⟩
      intro heq
      simp [isBareBreak, heq] at hbare

theorem refold_ne_of_areFolded {gap folded : Gap} {before cs : List Char} {c d : Char}
    (hwritten : gap.written = before ++ [d]) (hfolded : areFolded d c = true)
    (hshort : folded.written.length < gap.written.length + 1) :
    refold folded cs ≠ gap.written ++ c :: cs ∧
      ¬ (gap.written ++ c :: cs).IsChain fun c d => areFolded c d = false := by
  -- Either the text gets shorter, or a blank stands beside a break.
  constructor
  · intro heq
    have hlength := congrArg List.length heq
    have hle := length_refold_le folded cs
    simp only [List.length_append, List.length_cons] at hlength
    omega
  · intro hchain
    rw [hwritten, List.append_assoc] at hchain
    have hpair := hchain.right_of_append
    rw [List.singleton_append, List.isChain_cons_cons, hfolded] at hpair
    cases hpair.1

theorem refold_eq_iff {gap : Gap} (hgap : gap.IsWhole) {cs : List Char} (hcs : ∀ c ∈ cs, c.toNat ≠ 0x85) :
    refold gap cs = gap.written ++ cs ↔
      (gap.written ++ cs).IsChain fun c d => areFolded c d = false := by
  induction cs generalizing gap with
  | nil =>
    rw [List.append_nil]
    exact iff_of_true hgap.fold hgap.isChain
  | cons c cs ih =>
    obtain ⟨hc, hcs⟩ := List.forall_mem_cons.mp hcs
    have hkept {gap' : Gap} (hgap' : gap'.IsWhole) (hwritten : gap'.written = gap.written ++ [c]) :
        refold gap' cs = gap.written ++ c :: cs ↔
          (gap.written ++ c :: cs).IsChain fun c d => areFolded c d = false := by
      have hih := ih hgap' hcs
      rwa [hwritten, List.append_assoc] at hih
    rw [refold]
    split
    · rename_i hblank
      obtain rfl := beq_iff_eq.mp hblank
      cases gap with
      | none => exact hkept ⟨by simp, by simp⟩ rfl
      | blanks text =>
        exact hkept ⟨by simp, List.forall_mem_append.mpr ⟨hgap.2, by simp⟩⟩ rfl
      | breaks first others =>
        have hne : first ++ others ≠ [] := by
          obtain ⟨⟨c, rfl⟩, -⟩ := hgap
          simp
        have hlast := hgap.2 _ (List.getLast_mem hne)
        exact And.elim iff_of_false <| refold_ne_of_areFolded (List.dropLast_concat_getLast hne).symm
          (by simp [areFolded, hlast]) (Nat.lt_succ_self _)
    split
    · rename_i hbreak
      rw [breakText_of_ne hbreak hc]
      cases gap with
      | none => exact hkept ⟨⟨c, rfl⟩, by simpa using hbreak⟩ rfl
      | blanks text =>
        have hlast := hgap.2 _ (List.getLast_mem hgap.1)
        have hpos := List.length_pos_iff.mpr hgap.1
        exact And.elim iff_of_false <| refold_ne_of_areFolded (List.dropLast_concat_getLast hgap.1).symm
          (by simp [areFolded, hlast, hbreak]) (by simpa [Gap.addBreak, Gap.written] using hpos)
      | breaks first others =>
        refine hkept ⟨hgap.1, ?_⟩ (List.append_assoc ..).symm
        rw [← List.append_assoc]
        exact List.forall_mem_append.mpr ⟨hgap.2, by simpa using hbreak⟩
    · rename_i hblank hbreak
      rw [hgap.fold, List.append_cancel_left_eq, List.cons_inj_right]
      refine (ih Gap.isWhole_none hcs).trans ?_
      have hapart (d : Char) : areFolded d c = false ∧ areFolded c d = false := by
        simp_all [areFolded]
      have hnone : Gap.written .none = [] := rfl
      simp [hnone, List.isChain_append, hgap.isChain, List.isChain_cons, hapart]

/-- **Kept strings.** A string is read as itself exactly if its unescaped line breaks are separators
without blanks beside them. -/
theorem reread_eq_iff (text : String) : reread text = text ↔ KeepsBreaks text.toList := by
  have hlist : reread text = text ↔ refold .none text.toList = text.toList := by
    rw [reread, ← String.toList_inj, String.toList_ofList]
  rw [hlist]
  constructor
  · intro h
    have hnext : ∀ c ∈ text.toList, c.toNat ≠ 0x85 := by
      rw [← h]
      exact ne_nextLine_of_mem_refold (by simp [Gap.written])
    exact ⟨hnext, (refold_eq_iff Gap.isWhole_none hnext).mp h⟩
  · intro h
    exact (refold_eq_iff Gap.isWhole_none h.noNextLine).mpr h.noBlanks

end ZoneScript.Yaml
