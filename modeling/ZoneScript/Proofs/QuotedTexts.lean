import ZoneScript.Json.Write
import ZoneScript.Proofs.Numbers
import ZoneScript.Yaml.Quoted

/-!
# JSON strings between YAML's quotes

A string that was written as JSON is read as a scalar between double quotes. The escapes mean the same on
both sides, but there are line breaks that JSON does not escape, and the reader folds lines: of the blanks
around such a break nothing is left, and a marker of a document must not stand behind it.
-/

namespace ZoneScript.Yaml

open Json (escapedChar stringText)
open Text (dropHead?)

/-! ## Lines in a string -/

/-- The line breaks that JSON does not escape: next line, line separator and paragraph separator. -/
def isBareBreak (c : Char) : Bool :=
  c.toNat == 0x85 || c.toNat == 0x2028 || c.toNat == 0x2029

/-- The text of a line break: the two separators stay, and next line becomes a line feed. -/
def breakText (c : Char) : List Char :=
  if c.toNat == 0x2028 || c.toNat == 0x2029 then [c] else ['\n']

/-- What the characters of a string come to behind a gap. -/
def refold : Gap → List Char → List Char
  | gap, [] => gap.fold
  | gap, c :: cs =>
    if c == ' ' then refold (gap.addBlank c) cs
    else if isBareBreak c then refold (gap.addBreak (breakText c)) cs
    else gap.fold ++ c :: refold .none cs

/-- Three dashes or three points with a gap behind them. -/
def startsMarker (cs : List Char) : Bool :=
  [['-', '-', '-'], ['.', '.', '.']].any fun marker =>
    (dropHead? marker cs).any fun rest => rest.head?.any fun c => c == ' ' || isBareBreak c

/-- A line of the string looks like the start or the end of a document; `start` says whether the first
character starts a line. -/
def hasMarker : Bool → List Char → Bool
  | _, [] => false
  | start, c :: cs => (start && startsMarker (c :: cs)) || hasMarker (isBareBreak c) cs

/-! ## Escapes -/

/-- The characters that are written as themselves. -/
def isBare (c : Char) : Bool :=
  c != '"' && c != '\\' && !decide (c.toNat < 0x20)

/-- The characters with an escape of two characters, each behind the second one. -/
def shortEscapes : List (Char × Char) :=
  [('"', '"'), ('\\', '\\'), ('b', '\x08'), ('f', '\x0c'), ('n', '\n'), ('r', '\r'), ('t', '\t')]

/-- How a character is written between quotes. -/
inductive IsWritten (c : Char) : List Char → Prop
  | bare (hbare : isBare c = true) : IsWritten c [c]
  | short {e : Char} (hshort : (e, c) ∈ shortEscapes) : IsWritten c ['\\', e]
  | long (hcontrol : c.toNat < 0x20) :
    IsWritten c ['\\', 'u', '0', '0', Json.hexDigit (c.toNat / 16), Json.hexDigit c.toNat]

theorem isWritten_escapedChar (c : Char) : IsWritten c (escapedChar c) := by
  unfold escapedChar
  split
  · rename_i hsame
    simp only [Bool.or_eq_true, beq_iff_eq] at hsame
    rcases hsame with rfl | rfl <;> exact .short (by decide)
  rename_i hsame
  iterate 5
    split
    · rename_i heq
      obtain rfl := beq_iff_eq.mp heq
      exact .short (by decide)
  split
  · rename_i hcontrol
    exact .long hcontrol
  · rename_i hcontrol
    simp only [Bool.or_eq_true, beq_iff_eq, not_or] at hsame
    exact .bare (by simp [isBare, hsame, hcontrol])

theorem isBare_of_mem_shortEscapes {e c : Char} (h : (e, c) ∈ shortEscapes) : isBare c = false := by
  have hall : ∀ p ∈ shortEscapes, isBare p.2 = false := by decide
  exact hall _ h

theorem isBare_of_control {c : Char} (h : c.toNat < 0x20) : isBare c = false := by
  simp [isBare, h]

theorem escapedChar_of_isBare {c : Char} (h : isBare c = true) : escapedChar c = [c] := by
  have hwritten := isWritten_escapedChar c
  generalize escapedChar c = cs at hwritten ⊢
  cases hwritten with
  | bare => rfl
  | short hshort =>
    rw [isBare_of_mem_shortEscapes hshort] at h
    cases h
  | long hcontrol =>
    rw [isBare_of_control hcontrol] at h
    cases h

/-- The escapes that stand for a character in JSON and between double quotes alike. -/
inductive IsEscape (c : Char) : List Char → Prop
  | short {e : Char} (hbreak : isBreak e = false) (h : escape? e = some (.char c)) :
      IsEscape c ['\\', e]
  | long {a b : Char} (ha : isBreak a = false) (hb : isBreak b = false)
      (h : hexNumber? ['0', '0', a, b] = some c.toNat) : IsEscape c ['\\', 'u', '0', '0', a, b]

theorem isEscape_escapedChar {c : Char} (h : isBare c = false) : IsEscape c (escapedChar c) := by
  have hshorts : ∀ p ∈ shortEscapes, isBreak p.1 = false ∧ escape? p.1 = some (.char p.2) := by decide
  have hnumber : ∀ n : Fin 32, hexNumber? ['0', '0', Json.hexDigit (n / 16), Json.hexDigit n] =
      some n.val ∧ isBreak (Json.hexDigit (n / 16)) = false ∧ isBreak (Json.hexDigit n) = false := by
    decide
  have hwritten := isWritten_escapedChar c
  generalize escapedChar c = cs at hwritten ⊢
  cases hwritten with
  | bare hbare =>
    rw [h] at hbare
    cases hbare
  | short hshort => exact .short (hshorts _ hshort).1 (hshorts _ hshort).2
  | long hcontrol =>
    obtain ⟨hvalue, ha, hb⟩ := hnumber ⟨c.toNat, hcontrol⟩
    exact .long ha hb hvalue

theorem charOfNumber?_toNat (c : Char) : charOfNumber? c.toNat = some c := by
  have hvalid : c.toNat < 0xD800 ∨ 0xDFFF < c.toNat ∧ c.toNat < 0x110000 := c.valid
  have hnumber : (decide (c.toNat < 0xD800) ||
      (decide (0xE000 ≤ c.toNat) && decide (c.toNat < 0x110000))) = true := by
    simp only [Bool.or_eq_true, Bool.and_eq_true, decide_eq_true_eq]
    omega
  rw [charOfNumber?, hnumber, if_pos rfl, Char.ofNat_toNat]

theorem IsEscape.head? {c : Char} {cs : List Char} (h : IsEscape c cs) : cs.head? = some '\\' := by
  cases h <;> rfl

/-! ## Places -/

/-- The place behind a text, in which no carriage return stands in front of a line feed. -/
def Mark.past (m : Mark) : List Char → Mark
  | [] => m
  | c :: cs => past (if isBreak c then m.newLine 1 else m.advance 1) cs

theorem Mark.past_append (m : Mark) (cs ds : List Char) : m.past (cs ++ ds) = (m.past cs).past ds := by
  induction cs generalizing m with
  | nil => rfl
  | cons c cs ih => exact ih _

theorem Mark.past_of_not_isBreak {cs : List Char} (h : ∀ c ∈ cs, isBreak c = false) (m : Mark) :
    m.past cs = m.advance cs.length := by
  induction cs generalizing m with
  | nil => rfl
  | cons c cs ih =>
    obtain ⟨hc, hcs⟩ := List.forall_mem_cons.mp h
    rw [past, hc, ih hcs]
    simp [advance]
    omega

theorem Mark.index_past (m : Mark) (cs : List Char) : (m.past cs).index = m.index + cs.length := by
  induction cs generalizing m with
  | nil => rfl
  | cons c cs ih =>
    rw [past, ih]
    split <;> simp [newLine, advance] <;> omega

theorem Mark.line_past (m : Mark) (cs : List Char) :
    (m.past cs).line = m.line + cs.countP isBreak := by
  induction cs generalizing m with
  | nil => rfl
  | cons c cs ih =>
    rw [past, ih, List.countP_cons]
    split
    · simp only [newLine]
      omega
    · simp only [advance]
      omega

/-! ## One character -/

section

variable {c : Char} {rest : List Char} {m : Mark}

theorem isBlank_of_isBare (h : isBare c = true) : isBlank c = (c == ' ') := by
  have htab : c ≠ '\t' := by
    rintro rfl
    cases h
  simp [isBlank, htab]

theorem isBreak_of_isBare (h : isBare c = true) : isBreak c = isBareBreak c := by
  have hne (d : Char) (hd : isBare d = false) : (c == d) = false := by
    refine beq_eq_false_iff_ne.mpr ?_
    rintro rfl
    rw [h] at hd
    cases hd
  simp [isBreak, isBareBreak, hne '\n' rfl, hne '\r' rfl]

theorem isBare_of_isBareBreak (h : isBareBreak c = true) : isBare c = true := by
  have hlarge : 0x85 ≤ c.toNat := by
    simp only [isBareBreak, Bool.or_eq_true, beq_iff_eq] at h
    omega
  have hne (d : Char) (hd : d.toNat < 0x85) : c ≠ d := by
    rintro rfl
    omega
  simp only [isBare, Bool.and_eq_true, bne_iff_ne, Bool.not_eq_true', decide_eq_false_iff_not]
  exact ⟨⟨hne '"' (by decide), hne '\\' (by decide)⟩, by omega⟩

theorem lineBreak?_cons (h : isBreak c = false) : (⟨c :: rest, m⟩ : Cursor).lineBreak? = none := by
  rw [Cursor.lineBreak?.eq_def]
  split
  · rename_i heq
    obtain rfl := (List.cons.inj heq).1
    cases h
  · rename_i heq
    obtain ⟨rfl, -⟩ := List.cons.inj heq
    simp [h]
  · rfl

theorem lineBreak?_bareBreak (h : isBareBreak c = true) :
    (⟨c :: rest, m⟩ : Cursor).lineBreak? = some (breakText c, ⟨rest, m.newLine 1⟩) := by
  have hbreak : isBreak c = true := by
    simp only [isBareBreak, Bool.or_eq_true] at h
    rcases h with (h | h) | h <;> simp [isBreak, h]
  rw [Cursor.lineBreak?.eq_def]
  split
  · rename_i heq
    obtain rfl := (List.cons.inj heq).1
    cases h
  · rename_i heq
    obtain ⟨rfl, rfl⟩ := List.cons.inj heq
    rw [if_pos hbreak]
    rfl
  · rename_i heq
    cases heq

theorem atDocumentMarker_cons (hdash : c ≠ '-') (hpoint : c ≠ '.') :
    (⟨c :: rest, m⟩ : Cursor).atDocumentMarker = false := by
  simp [Cursor.atDocumentMarker, Cursor.atMarker, Cursor.peek?, hdash, hpoint]

variable (fuel : Nat) (done : List Char) (gap : Gap)

theorem readQuoted_bare (h : isBare c = true) (hblank : c ≠ ' ') (hbreak : isBareBreak c = false)
    (hmarker : (⟨c :: rest, m⟩ : Cursor).atDocumentMarker = false) :
    readQuoted false (fuel + 1) done gap ⟨c :: rest, m⟩ =
      readQuoted false fuel (c :: (gap.fold.reverse ++ done)) .none ⟨rest, m.advance 1⟩ := by
  have hstop : (c == '"') = false ∧ (c == '\\') = false := by
    simp only [isBare, Bool.and_eq_true, bne_iff_ne] at h
    simp [h]
  rw [readQuoted]
  simp only [isBlank_of_isBare h, beq_eq_false_iff_ne.mpr hblank,
    lineBreak?_cons (isBreak_of_isBare h ▸ hbreak), hmarker, hstop, Bool.false_eq_true, if_false,
    Cursor.skip, List.drop_succ_cons, List.drop_zero]

theorem readQuoted_escape {cs : List Char} (h : IsEscape c cs) :
    readQuoted false (fuel + 1) done gap ⟨cs ++ rest, m⟩ =
      readQuoted false fuel (c :: (gap.fold.reverse ++ done)) .none ⟨rest, m.advance cs.length⟩ := by
  have hmarker (ds : List Char) : (⟨'\\' :: ds, m⟩ : Cursor).atDocumentMarker = false :=
    atDocumentMarker_cons (by decide) (by decide)
  have hbackslash (ds : List Char) : (⟨'\\' :: ds, m⟩ : Cursor).lineBreak? = none := lineBreak?_cons rfl
  cases h with
  | @short e hbreak h =>
    have hnext : ((⟨'\\' :: e :: rest, m⟩ : Cursor).skip 1).lineBreak? = none := lineBreak?_cons hbreak
    simp only [List.cons_append, List.nil_append]
    rw [readQuoted]
    simp only [hmarker, hbackslash, hnext, List.head?_cons, Option.bind_some, h]
    rfl
  | @long a b ha hb h =>
    simp only [List.cons_append, List.nil_append]
    rw [readQuoted]
    simp only [hmarker, hbackslash, List.head?_cons, Option.bind_some, escape?, Cursor.skip,
      List.drop_succ_cons, List.drop_zero, List.take_succ_cons, List.take_zero, List.length_cons,
      List.length_nil, Nat.reduceAdd, if_true, h, charOfNumber?_toNat]
    rfl

end

/-! ## Markers of documents -/

/-- The rest of a JSON string, with what follows it. -/
def quoteTail (cs rest : List Char) : List Char :=
  cs.flatMap escapedChar ++ '"' :: rest

theorem quoteTail_cons (c : Char) (cs rest : List Char) :
    quoteTail (c :: cs) rest = escapedChar c ++ quoteTail cs rest := by
  simp [quoteTail]

theorem head?_quoteTail {c : Char} (h : isBare c = true) {cs rest : List Char} :
    (quoteTail cs rest).head? = some c ↔ cs.head? = some c := by
  cases cs with
  | nil =>
    have hquote : '"' ≠ c := by
      rintro rfl
      cases h
    simp [quoteTail, hquote]
  | cons d cs =>
    rw [quoteTail_cons]
    cases hd : isBare d with
    | true => simp [escapedChar_of_isBare hd]
    | false =>
      have hbackslash : '\\' ≠ c := by
        rintro rfl
        cases h
      have hne : d ≠ c := by
        rintro rfl
        rw [h] at hd
        cases hd
      rw [List.head?_append, (isEscape_escapedChar hd).head?]
      simp [hbackslash, hne]

theorem dropHead?_quoteTail {marker : List Char} (h : ∀ c ∈ marker, isBare c = true) (cs rest : List Char) :
    dropHead? marker (quoteTail cs rest) = (dropHead? marker cs).map (quoteTail · rest) := by
  induction marker generalizing cs with
  | nil => simp [dropHead?]
  | cons c marker ih =>
    obtain ⟨hc, hmarker⟩ := List.forall_mem_cons.mp h
    by_cases hhead : cs.head? = some c
    · obtain ⟨tail, rfl⟩ := List.head?_eq_some_iff.mp hhead
      rw [quoteTail_cons, escapedChar_of_isBare hc]
      simpa [dropHead?] using ih hmarker tail
    · have hnone {ds : List Char} (hds : ds.head? ≠ some c) : dropHead? (c :: marker) ds = none := by
        cases ds with
        | nil => rfl
        | cons d ds => exact if_neg fun heq => hds (congrArg some (beq_iff_eq.mp heq).symm)
      rw [hnone hhead, hnone fun hraw => hhead ((head?_quoteTail hc).mp hraw)]
      rfl

theorem isGap_quoteTail (cs rest : List Char) :
    isGap (quoteTail cs rest).head? = cs.head?.any fun c => c == ' ' || isBareBreak c := by
  cases cs with
  | nil => rfl
  | cons c cs =>
    rw [quoteTail_cons]
    cases hc : isBare c with
    | true =>
      rw [escapedChar_of_isBare hc]
      simp [isGap, isBlank_of_isBare hc, isBreak_of_isBare hc]
    | false =>
      have hother : (c == ' ') = false ∧ isBareBreak c = false := by
        have hne : c ≠ ' ' := by
          rintro rfl
          cases hc
        refine ⟨beq_eq_false_iff_ne.mpr hne, Bool.eq_false_iff.mpr fun hbreak => ?_⟩
        rw [isBare_of_isBareBreak hbreak] at hc
        cases hc
      rw [List.head?_append, (isEscape_escapedChar hc).head?]
      simp [hother]
      rfl

theorem atMarker_eq (marker : Char) (cs : List Char) (m : Mark) :
    (⟨cs, m⟩ : Cursor).atMarker marker =
      (m.column == 0 && (dropHead? [marker, marker, marker] cs).any fun rest => isGap rest.head?) := by
  match cs with
  | [] => simp [Cursor.atMarker, Cursor.peek?, dropHead?]
  | [a] => simp [Cursor.atMarker, Cursor.peek?, dropHead?]
  | [a, b] => simp [Cursor.atMarker, Cursor.peek?, dropHead?]
  | a :: b :: c :: ds =>
    have hne {c : Char} (h : ¬ c = marker) : ¬ marker = c := fun heq => h heq.symm
    by_cases ha : a = marker
    · by_cases hb : b = marker
      · by_cases hc : c = marker
        · simp [Cursor.atMarker, Cursor.peek?, dropHead?, ha, hb, hc, List.head?_eq_getElem?]
        · simp [Cursor.atMarker, Cursor.peek?, dropHead?, ha, hb, hc, hne hc]
      · simp [Cursor.atMarker, Cursor.peek?, dropHead?, ha, hb, hne hb]
    · simp [Cursor.atMarker, Cursor.peek?, dropHead?, ha, hne ha]

theorem atDocumentMarker_quoteTail (cs rest : List Char) (m : Mark) :
    (⟨quoteTail cs rest, m⟩ : Cursor).atDocumentMarker = (m.column == 0 && startsMarker cs) := by
  have hmarker (marker : Char) (h : isBare marker = true) :
      (dropHead? [marker, marker, marker] (quoteTail cs rest)).any (fun rest => isGap rest.head?) =
        (dropHead? [marker, marker, marker] cs).any fun rest =>
          rest.head?.any fun c => c == ' ' || isBareBreak c := by
    rw [dropHead?_quoteTail (by simp [h])]
    simp only [Option.any_map, isGap_quoteTail]
  rw [Cursor.atDocumentMarker, atMarker_eq, atMarker_eq, hmarker '-' rfl, hmarker '.' rfl,
    startsMarker, ← Bool.and_or_distrib_left]
  simp

/-! ## The whole string -/

theorem not_isBreak_of_mem_escapedChar {c d : Char} (hbreak : isBareBreak c = false)
    (h : d ∈ escapedChar c) : isBreak d = false := by
  cases hc : isBare c with
  | true =>
    rw [escapedChar_of_isBare hc, List.mem_singleton] at h
    rw [h, isBreak_of_isBare hc, hbreak]
  | false =>
    have hall {cs : List Char} (hcs : IsEscape c cs) : ∀ d ∈ cs, isBreak d = false := by
      cases hcs with
      | short he => simpa using ⟨rfl, he⟩
      | long ha hb => simpa using ⟨rfl, rfl, rfl, ha, hb⟩
    exact hall (isEscape_escapedChar hc) d h

theorem escapedChar_ne_nil (c : Char) : escapedChar c ≠ [] := by
  cases hc : isBare c with
  | true => simp [escapedChar_of_isBare hc]
  | false =>
    intro h
    have hhead := (isEscape_escapedChar hc).head?
    rw [h] at hhead
    cases hhead

theorem column_past_escapedChar (m : Mark) (c : Char) :
    (m.past (escapedChar c)).column = 0 ↔ isBareBreak c = true := by
  cases hbreak : isBareBreak c with
  | true =>
    have hbare := isBare_of_isBareBreak hbreak
    simp [escapedChar_of_isBare hbare, Mark.past, isBreak_of_isBare hbare, hbreak, Mark.newLine]
  | false =>
    rw [Mark.past_of_not_isBreak fun d => not_isBreak_of_mem_escapedChar hbreak]
    have hpos := List.length_pos_iff.mpr (escapedChar_ne_nil c)
    refine iff_of_false (fun h => ?_) Bool.false_ne_true
    have hcolumn : m.column + (escapedChar c).length = 0 := h
    omega

/-- What has been read, and the gap behind it, after one character more. -/
def afterChar (c : Char) (done : List Char) (gap : Gap) : List Char × Gap :=
  if c == ' ' then (done, gap.addBlank c)
  else if isBareBreak c then (done, gap.addBreak (breakText c))
  else (c :: (gap.fold.reverse ++ done), .none)

theorem refold_cons (c : Char) (cs done : List Char) (gap : Gap) :
    (afterChar c done gap).1.reverse ++ refold (afterChar c done gap).2 cs =
      done.reverse ++ refold gap (c :: cs) := by
  rw [afterChar, refold]
  split
  · rfl
  · split
    · rfl
    · simp

theorem readQuoted_cons {c : Char} {cs : List Char} {m : Mark}
    (hmarker : m.column = 0 → startsMarker (c :: cs) = false) (fuel : Nat) (done : List Char) (gap : Gap)
    (rest : List Char) :
    readQuoted false (fuel + 1) done gap ⟨quoteTail (c :: cs) rest, m⟩ =
      readQuoted false fuel (afterChar c done gap).1 (afterChar c done gap).2
        ⟨quoteTail cs rest, m.past (escapedChar c)⟩ := by
  have hdocument : (⟨quoteTail (c :: cs) rest, m⟩ : Cursor).atDocumentMarker = false := by
    rw [atDocumentMarker_quoteTail]
    simpa using hmarker
  rw [afterChar]
  split
  · rename_i hblank
    obtain rfl := beq_iff_eq.mp hblank
    rfl
  rename_i hblank
  rw [beq_iff_eq] at hblank
  split
  · rename_i hbreak
    have hbare := isBare_of_isBareBreak hbreak
    rw [quoteTail_cons, escapedChar_of_isBare hbare, List.singleton_append, readQuoted]
    simp only [isBlank_of_isBare hbare, beq_eq_false_iff_ne.mpr hblank, Bool.false_eq_true, if_false,
      lineBreak?_bareBreak hbreak, Mark.past, isBreak_of_isBare hbare, hbreak, if_true]
  · rename_i hbreak
    rw [Bool.not_eq_true] at hbreak
    rw [Mark.past_of_not_isBreak fun d => not_isBreak_of_mem_escapedChar hbreak]
    rw [quoteTail_cons] at hdocument ⊢
    cases hbare : isBare c with
    | true =>
      rw [escapedChar_of_isBare hbare] at hdocument ⊢
      exact readQuoted_bare fuel done gap hbare hblank hbreak hdocument
    | false => exact readQuoted_escape fuel done gap (isEscape_escapedChar hbare)

theorem readQuoted_quoteTail {cs : List Char} {m : Mark} {start : Bool}
    (hstart : m.column = 0 ↔ start = true) (hmarker : hasMarker start cs = false) {fuel : Nat}
    (hfuel : cs.length < fuel) (done : List Char) (gap : Gap) (rest : List Char) :
    readQuoted false fuel done gap ⟨quoteTail cs rest, m⟩ =
      .ok (done.reverse ++ refold gap cs, ⟨rest, (m.past (cs.flatMap escapedChar)).advance 1⟩) := by
  induction cs generalizing m start fuel done gap with
  | nil =>
    obtain ⟨fuel, rfl⟩ := Nat.exists_eq_add_of_lt hfuel
    have hquote : (⟨'"' :: rest, m⟩ : Cursor).lineBreak? = none := lineBreak?_cons rfl
    have hdocument : (⟨'"' :: rest, m⟩ : Cursor).atDocumentMarker = false :=
      atDocumentMarker_cons (by decide) (by decide)
    rw [quoteTail, List.flatMap_nil, List.nil_append, readQuoted]
    simp only [hquote, hdocument]
    simp [isBlank, Mark.past, Cursor.skip, refold]
  | cons c cs ih =>
    obtain ⟨fuel, rfl⟩ := Nat.exists_eq_add_of_lt hfuel
    simp only [hasMarker, Bool.or_eq_false_iff, Bool.and_eq_false_imp] at hmarker
    rw [readQuoted_cons fun hcolumn => hmarker.1 (hstart.mp hcolumn)]
    rw [ih (column_past_escapedChar m c) hmarker.2 (by simp; omega), refold_cons, List.flatMap_cons,
      Mark.past_append]

theorem eq_of_startsMarker {c : Char} {cs : List Char} (h : startsMarker (c :: cs) = true) :
    c = '-' ∨ c = '.' := by
  refine Decidable.byContradiction fun hne => ?_
  rw [not_or] at hne
  have hdash : ¬ '-' = c := fun heq => hne.1 heq.symm
  have hpoint : ¬ '.' = c := fun heq => hne.2 heq.symm
  simp [startsMarker, dropHead?, hdash, hpoint] at h

theorem readQuoted_quoteTail_marker {cs : List Char} {m : Mark} {start : Bool}
    (hstart : m.column = 0 ↔ start = true) (hmarker : hasMarker start cs = true) (fuel : Nat)
    (done : List Char) (gap : Gap) (rest : List Char) :
    ∃ problem, readQuoted false fuel done gap ⟨quoteTail cs rest, m⟩ = .error problem := by
  induction cs generalizing m start fuel done gap with
  | nil => cases hmarker
  | cons c cs ih =>
    cases fuel with
    | zero => exact ⟨_, rfl⟩
    | succ fuel =>
      by_cases hhere : (start && startsMarker (c :: cs)) = true
      · obtain ⟨hline, hstarts⟩ := Bool.and_eq_true_iff.mp hhere
        have hdocument : (⟨quoteTail (c :: cs) rest, m⟩ : Cursor).atDocumentMarker = true := by
          simp [atDocumentMarker_quoteTail, hstarts, hstart.mpr hline]
        have hfirst := eq_of_startsMarker hstarts
        have hbare : isBare c = true := by rcases hfirst with rfl | rfl <;> rfl
        have hplain : isBlank c = false ∧ isBreak c = false := by
          rcases hfirst with rfl | rfl <;> exact ⟨rfl, rfl⟩
        rw [quoteTail_cons, escapedChar_of_isBare hbare, List.singleton_append] at hdocument ⊢
        rw [readQuoted]
        simp only [hplain.1, lineBreak?_cons hplain.2, hdocument]
        exact ⟨_, rfl⟩
      · have hlater : hasMarker (isBareBreak c) cs = true :=
          (Bool.or_eq_true_iff.mp hmarker).resolve_left hhere
        rw [Bool.not_eq_true, Bool.and_eq_false_imp] at hhere
        rw [readQuoted_cons fun hcolumn => hhere (hstart.mp hcolumn)]
        exact ih (column_past_escapedChar m c) hlater fuel _ _

/-- The text that a string is read as. -/
def reread (text : String) : String :=
  .ofList (refold .none text.toList)

theorem stringText_append (text : String) (rest : List Char) :
    stringText text ++ rest = '"' :: quoteTail text.toList rest := by
  simp [stringText, quoteTail]

theorem past_stringText (text : String) (m : Mark) :
    m.past (stringText text) = ((m.advance 1).past (text.toList.flatMap escapedChar)).advance 1 :=
  Mark.past_append (m.advance 1) _ _

theorem quotedScalar_stringText {text : String} (h : hasMarker false text.toList = false)
    (rest : List Char) (m : Mark) :
    quotedScalar false ⟨stringText text ++ rest, m⟩ =
      .ok (⟨.scalar (reread text) .doubleQuoted, m, m.past (stringText text)⟩,
        ⟨rest, m.past (stringText text)⟩) := by
  have hlength (cs : List Char) : cs.length ≤ (cs.flatMap escapedChar).length := by
    induction cs with
    | nil => exact Nat.le_refl 0
    | cons c cs ih =>
      have hpos := List.length_pos_iff.mpr (escapedChar_ne_nil c)
      rw [List.flatMap_cons, List.length_append, List.length_cons]
      omega
  have hfuel : text.toList.length < (stringText text ++ rest).length + 1 := by
    have hescaped := hlength text.toList
    simp only [stringText_append, quoteTail, List.length_cons, List.length_append]
    omega
  have hread := readQuoted_quoteTail (m := m.advance 1) (iff_of_false (Nat.succ_ne_zero _) Bool.false_ne_true)
    h hfuel [] .none rest
  rw [stringText_append] at hread ⊢
  rw [quotedScalar]
  simp only [Cursor.skip, List.drop_succ_cons, List.drop_zero, hread]
  rw [past_stringText]
  rfl

theorem quotedScalar_stringText_marker {text : String} (h : hasMarker false text.toList = true)
    (rest : List Char) (m : Mark) :
    ∃ problem, quotedScalar false ⟨stringText text ++ rest, m⟩ = .error problem := by
  obtain ⟨problem, hread⟩ := readQuoted_quoteTail_marker (m := m.advance 1)
    (iff_of_false (Nat.succ_ne_zero _) Bool.false_ne_true) h ((stringText text ++ rest).length + 1) []
    .none rest
  refine ⟨problem, ?_⟩
  rw [stringText_append] at hread ⊢
  rw [quotedScalar]
  simp only [Cursor.skip, List.drop_succ_cons, List.drop_zero, hread]
  rfl

end ZoneScript.Yaml
