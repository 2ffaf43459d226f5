import ZoneScript.Proofs.QuotedTexts
import ZoneScript.Proofs.Words
import ZoneScript.Yaml.Plain

/-!
# Words of JSON

Booleans and integers are written as words without quotes. In a flow collection such a word is a plain
scalar, and the gap behind it is passed together with it.
-/

namespace ZoneScript.Yaml

/-- The characters between the tokens of JSON. -/
def isWhite (c : Char) : Bool :=
  c == ' ' || c == '\n'

/-! ## Characters -/

/-- A letter or a digit, behind a minus sign or not, and more of them. -/
inductive IsWord : List Char → Prop
  | bare {c : Char} {cs : List Char} (h : ∀ d ∈ c :: cs, d.isAlphanum = true) : IsWord (c :: cs)
  | signed {c : Char} {cs : List Char} (h : ∀ d ∈ c :: cs, d.isAlphanum = true) : IsWord ('-' :: c :: cs)

/-- A plain scalar goes on with such a character, whatever is around it. -/
structure GoesOn (c : Char) : Prop where
  blank : isBlank c = false
  lineBreak : isBreak c = false
  comment : (c == '#') = false
  colon : (c == ':') = false
  flowMark : isFlowMark c = false
  byteOrderMark : isByteOrderMark c = false

theorem ne_of_isAlphanum {c d : Char} (hc : c.isAlphanum = true) (hd : d.isAlphanum = false) : c ≠ d := by
  rintro rfl
  rw [hc] at hd
  cases hd

theorem goesOn_of_isAlphanum {c : Char} (h : c.isAlphanum = true) : GoesOn c := by
  have hne (d : Char) (hd : d.isAlphanum = false) := ne_of_isAlphanum h hd
  have hrange := Shell.toNat_of_isAlphanum h
  have hnumber (n : Nat) (hn : 0x80 ≤ n) : c.toNat ≠ n := by omega
  exact {
    blank := by simp [isBlank, hne ' ' rfl, hne '\t' rfl]
    lineBreak := by simp [isBreak, hne '\n' rfl, hne '\r' rfl, hnumber]
    comment := by simp [hne '#' rfl]
    colon := by simp [hne ':' rfl]
    flowMark := by
      simp [isFlowMark, hne ',' rfl, hne '[' rfl, hne ']' rfl, hne '\x7b' rfl, hne '\x7d' rfl]
    byteOrderMark := by simp [isByteOrderMark, hnumber] }

theorem goesOn_minus : GoesOn '-' :=
  ⟨rfl, rfl, rfl, rfl, rfl, rfl⟩

theorem IsWord.goesOn {word : List Char} (h : IsWord word) : ∀ c ∈ word, GoesOn c := by
  cases h with
  | bare h => exact fun c hc => goesOn_of_isAlphanum (h c hc)
  | signed h => exact List.forall_mem_cons.mpr ⟨goesOn_minus, fun c hc => goesOn_of_isAlphanum (h c hc)⟩

theorem IsWord.ne_nil {word : List Char} (h : IsWord word) : word ≠ [] := by
  cases h <;> exact List.cons_ne_nil _ _

/-! ## Reading a word -/

theorem readPlain_word (indent : Int) {word : List Char} (hword : ∀ c ∈ word, GoesOn c) (rest : List Char)
    (done : List Char) (stop mark : Mark)
    (hstart : done ≠ [] ∨ (⟨word ++ rest, mark⟩ : Cursor).atDocumentMarker = false) (fuel : Nat) :
    ∃ stop', readPlain true indent (word.length + fuel) done stop .none ⟨word ++ rest, mark⟩ =
      readPlain true indent fuel (word.reverse ++ done) stop' .none ⟨rest, mark.advance word.length⟩ := by
  induction word generalizing done stop mark with
  | nil => exact ⟨stop, by simp [Mark.advance]⟩
  | cons c word ih =>
    obtain ⟨hc, hword⟩ := List.forall_mem_cons.mp hword
    have hmarker : (done.isEmpty && (⟨c :: (word ++ rest), mark⟩ : Cursor).atDocumentMarker) = false := by
      rcases hstart with hdone | hmarker
      · simp [hdone]
      · rw [List.cons_append] at hmarker
        simp [hmarker]
    obtain ⟨stop', hstop⟩ := ih hword (c :: done) (mark.advance 1) (mark.advance 1)
      (.inl (List.cons_ne_nil _ _))
    refine ⟨stop', ?_⟩
    have hlength : (c :: word).length + fuel = word.length + fuel + 1 := by
      rw [List.length_cons]
      omega
    have hadvance : (mark.advance 1).advance word.length = mark.advance (c :: word).length := by
      simp only [Mark.advance, List.length_cons, Nat.add_assoc, Nat.add_comm 1]
    rw [List.reverse_cons, List.append_assoc, List.singleton_append, ← hadvance, ← hstop, hlength,
      List.cons_append, readPlain]
    simp [hc.blank, lineBreak?_cons hc.lineBreak, hc.comment, hc.colon, hc.flowMark, hmarker, Gap.fold,
      Cursor.skip]

theorem readPlain_gap (indent : Int) {c : Char} (hc : c = ',' ∨ c = ']' ∨ c = '\x7d') {gap : List Char}
    (hgap : ∀ d ∈ gap, isWhite d = true) (rest done : List Char) (stop mark : Mark) (before : Gap) {fuel : Nat}
    (hfuel : gap.length < fuel) :
    ∃ brokeLine, readPlain true indent fuel done stop before ⟨gap ++ c :: rest, mark⟩ =
      .ok ⟨done.reverse, stop, ⟨c :: rest, mark.past gap⟩, brokeLine⟩ := by
  induction gap generalizing mark before fuel with
  | nil =>
    obtain ⟨fuel, rfl⟩ := Nat.exists_eq_add_of_lt hfuel
    refine ⟨before.hasBreak, ?_⟩
    rw [List.nil_append, readPlain]
    rcases hc with rfl | rfl | rfl <;>
      simp [isBlank, lineBreak?_cons (c := ',') rfl, lineBreak?_cons (c := ']') rfl,
        lineBreak?_cons (c := '\x7d') rfl, atDocumentMarker_cons, isFlowMark, Mark.past]
  | cons d gap ih =>
    obtain ⟨hd, htail⟩ := List.forall_mem_cons.mp hgap
    obtain ⟨fuel, rfl⟩ := Nat.exists_eq_add_of_lt hfuel
    simp only [isWhite, Bool.or_eq_true, beq_iff_eq] at hd
    have hfuel' : gap.length < (d :: gap).length + fuel := by
      rw [List.length_cons]
      omega
    rcases hd with rfl | rfl
    · obtain ⟨brokeLine, hread⟩ := ih htail (mark.advance 1) (before.addBlank ' ') hfuel'
      refine ⟨brokeLine, ?_⟩
      rw [List.cons_append, readPlain]
      simpa [isBlank, Cursor.skip, Mark.past, isBreak] using hread
    · have hbreak : (⟨'\n' :: (gap ++ c :: rest), mark⟩ : Cursor).lineBreak? =
        some (['\n'], ⟨gap ++ c :: rest, mark.newLine 1⟩) := rfl
      obtain ⟨brokeLine, hread⟩ := ih htail (mark.newLine 1) (before.addBreak ['\n']) hfuel'
      refine ⟨brokeLine, ?_⟩
      rw [List.cons_append, readPlain]
      simpa [isBlank, hbreak, Mark.past, isBreak] using hread

theorem plainScalar_word (indent : Int) {word : List Char} (hword : IsWord word) {c : Char}
    (hc : c = ',' ∨ c = ']' ∨ c = '\x7d') {gap : List Char} (hgap : ∀ d ∈ gap, isWhite d = true)
    (rest : List Char) (mark : Mark) :
    ∃ token next brokeLine, plainScalar true indent ⟨word ++ (gap ++ c :: rest), mark⟩ =
        .ok (token, next, brokeLine) ∧
      token.kind = .scalar (.ofList word) .plain ∧ next.rest = c :: rest := by
  have hmarker : (⟨word ++ (gap ++ c :: rest), mark⟩ : Cursor).atDocumentMarker = false := by
    cases hword with
    | @bare d ds h =>
      have hd := h d List.mem_cons_self
      exact atDocumentMarker_cons (ne_of_isAlphanum hd rfl) (ne_of_isAlphanum hd rfl)
    | @signed d ds h =>
      have hd := ne_of_isAlphanum (h d List.mem_cons_self) (d := '-') rfl
      simp [Cursor.atDocumentMarker, Cursor.atMarker, Cursor.peek?, hd]
  obtain ⟨stop, hread⟩ := readPlain_word indent hword.goesOn (gap ++ c :: rest) [] mark mark
    (.inr hmarker) (gap.length + rest.length + 2)
  obtain ⟨brokeLine, hrest⟩ := readPlain_gap indent hc hgap rest (word.reverse ++ []) stop
    (mark.advance word.length) .none (show gap.length < gap.length + rest.length + 2 by omega)
  have hlength : (word ++ (gap ++ c :: rest)).length + 1 = word.length + (gap.length + rest.length + 2) := by
    simp only [List.length_append, List.length_cons]
    omega
  refine ⟨⟨.scalar (.ofList (word.reverse ++ []).reverse) .plain, mark, stop⟩,
    ⟨c :: rest, (mark.advance word.length).past gap⟩, brokeLine, ?_, by simp, rfl⟩
  rw [plainScalar, hlength, hread, hrest]
  rfl

end ZoneScript.Yaml
