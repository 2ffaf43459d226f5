import ZoneScript.Proofs.Words

/-!
# Arguments that are joined again

The arguments of a direct rule are kept as the words that were read, joined with as few quotes as they
allow. A text that is such a join of its own words leaves no quote open at a blank, so a word of it
without quotes around it holds none, and no backslash either.
-/

namespace ZoneScript.Shell

/-! ## Words without white space -/

theorem map_push_ne_nil {c : Char} {r : Except OpenQuote (List (List Char))} :
    r.map (push c) ≠ .ok [] := by
  intro h
  cases r with
  | error e => cases h
  | ok ws => cases ws <;> cases h

theorem splitFrom_ne_nil {mode : Mode} (hmode : mode ≠ .gap) (cs : List Char) :
    splitFrom mode cs ≠ .ok [] := by
  fun_induction splitFrom mode cs with
  | case1 | case2 | case3 | case4 | case5 | case6 | case7 | case8 => contradiction
  | case9 | case16 | case19 => exact fun h => nomatch h
  | case10 | case15 | case18 | case20 | case21 | case23 => exact map_push_ne_nil
  | case11 _ cs =>
    intro h
    cases hr : splitFrom .gap cs with
    | ok ws => rw [hr] at h; cases h
    | error e => rw [hr] at h; cases h
  | case12 _ _ _ _ _ ih | case13 _ _ _ _ _ _ ih | case14 _ _ _ _ _ _ _ ih | case17 _ _ _ ih
  | case22 _ _ _ _ ih => exact ih (by simp)

theorem push_eq_cons {c : Char} {r : Except OpenQuote (List (List Char))} (hr : r ≠ .ok [])
    {u : List Char} {us : List (List Char)} (h : r.map (push c) = .ok (u :: us)) :
    ∃ v, u = c :: v ∧ r = .ok (v :: us) := by
  cases r with
  | error e => cases h
  | ok ws =>
    cases ws with
    | nil => exact absurd rfl hr
    | cons w ws =>
      simp only [Except.map, push, Except.ok.injEq, List.cons.injEq] at h
      obtain ⟨rfl, rfl⟩ := h
      exact ⟨w, rfl, rfl⟩

/-- The number of characters before the first white space. -/
def stretch (cs : List Char) : Nat :=
  (cs.takeWhile (!Text.isSpace ·)).length

theorem stretch_cons {c : Char} (h : Text.isSpace c = false) (cs : List Char) :
    stretch (c :: cs) = stretch cs + 1 := by
  simp [stretch, h]

theorem stretch_append {t : List Char} (ht : ∀ c ∈ t, Text.isSpace c = false) {rest : List Char}
    (hrest : ∀ c ∈ rest.head?, Text.isSpace c = true) : stretch (t ++ rest) = t.length := by
  induction t with
  | nil =>
    cases rest with
    | nil => rfl
    | cons c rest => simp [stretch, hrest c rfl]
  | cons c t ih =>
    rw [List.cons_append, stretch_cons (ht c List.mem_cons_self),
      ih fun d hd => ht d (List.mem_cons_of_mem _ hd)]
    rfl

theorem length_le_stretch {mode : Mode} {cs u : List Char} {us : List (List Char)}
    (hmode : mode ≠ .gap) (h : splitFrom mode cs = .ok (u :: us))
    (hu : ∀ c ∈ u, Text.isSpace c = false) : u.length ≤ stretch cs := by
  -- No quote and no backslash reaches beyond a blank without taking the blank in.
  have pushed {c : Char} {m : Mode} (hm : m ≠ .gap) {cs u : List Char}
      (ih : ∀ {v}, m ≠ .gap → splitFrom m cs = .ok (v :: us) →
        (∀ d ∈ v, Text.isSpace d = false) → v.length ≤ stretch cs)
      (h : (splitFrom m cs).map (push c) = .ok (u :: us)) (hu : ∀ d ∈ u, Text.isSpace d = false) :
      u.length ≤ stretch (c :: cs) := by
    obtain ⟨v, rfl, hv⟩ := push_eq_cons (splitFrom_ne_nil hm _) h
    rw [stretch_cons (hu c List.mem_cons_self)]
    exact Nat.succ_le_succ (ih hm hv fun d hd => hu d (List.mem_cons_of_mem _ hd))
  have dropped {c : Char} {cs : List Char} (hc : Text.isSpace c = false) {n : Nat}
      (h : n ≤ stretch cs) : n ≤ stretch (c :: cs) := by
    rw [stretch_cons hc]
    exact Nat.le_succ_of_le h
  fun_induction splitFrom mode cs generalizing u with
  | case1 | case2 | case3 | case4 | case5 | case6 | case7 | case8 => contradiction
  | case16 | case19 => cases h
  | case9 =>
    cases h
    exact Nat.zero_le _
  | case11 c cs =>
    cases hr : splitFrom .gap cs with
    | error e => rw [hr] at h; cases h
    | ok ws =>
      rw [hr] at h
      cases h
      exact Nat.zero_le _
  | case10 c cs ih => exact dropped (by decide) (pushed (by decide) ih h hu)
  | case20 c cs _ ih => exact dropped (by decide) (pushed (by decide) ih h hu)
  | case15 c cs _ _ _ _ _ ih => exact pushed (by decide) ih h hu
  | case18 c cs _ ih => exact pushed (by decide) ih h hu
  | case21 c cs _ ih => exact pushed (by decide) ih h hu
  | case23 c cs _ _ ih => exact pushed (by decide) ih h hu
  | case12 c cs _ hc _ ih => exact dropped (by simpa using hc) (ih (by decide) h hu)
  | case13 c cs _ hc _ _ ih => exact dropped (by simpa using hc) (ih (by decide) h hu)
  | case14 c cs _ hc _ _ _ ih => exact dropped (by simpa using hc) (ih (by decide) h hu)
  | case17 c cs hc ih =>
    rw [beq_iff_eq.mp hc]
    exact dropped (by decide) (ih (by decide) h hu)
  | case22 c cs _ hc ih =>
    rw [beq_iff_eq.mp hc]
    exact dropped (by decide) (ih (by decide) h hu)

theorem length_le_of_special {c : Char} {t rest u : List Char} {us : List (List Char)}
    (hc : c = '\'' ∨ c = '"' ∨ c = '\\') (ht : ∀ c ∈ t, Text.isSpace c = false)
    (hrest : ∀ c ∈ rest.head?, Text.isSpace c = true) (hu : ∀ c ∈ u, Text.isSpace c = false)
    (h : splitFrom .word (c :: (t ++ rest)) = .ok (u :: us)) : u.length ≤ t.length := by
  -- What is not plain is taken without coming into the word, so that too few characters are left.
  have hstretch := stretch_append ht hrest
  have hquoted {m : Mode} (hm : m ≠ .gap) (hr : splitFrom m (t ++ rest) = .ok (u :: us)) :
      u.length ≤ t.length := by
    rw [← hstretch]
    exact length_le_stretch hm hr hu
  rcases hc with rfl | rfl | rfl
  · exact hquoted (m := .single) (by decide) h
  · exact hquoted (m := .double) (by decide) h
  · cases hsplit : t ++ rest with
    | nil =>
      rw [hsplit] at h
      cases h
      exact Nat.zero_le _
    | cons d cs =>
      -- the character behind the backslash comes into the word in its place
      rw [hsplit] at h hstretch
      obtain ⟨v, rfl, hv⟩ := push_eq_cons (splitFrom_ne_nil (by decide) cs) h
      obtain ⟨hd, hv'⟩ := List.forall_mem_cons.mp hu
      rw [← hstretch, stretch_cons hd]
      exact Nat.succ_le_succ (length_le_stretch (by decide) hv hv')

theorem isPlain_of_length_eq {t rest u : List Char} {us : List (List Char)}
    (ht : ∀ c ∈ t, Text.isSpace c = false) (hrest : ∀ c ∈ rest.head?, Text.isSpace c = true)
    (hu : ∀ c ∈ u, Text.isSpace c = false) (h : splitFrom .word (t ++ rest) = .ok (u :: us))
    (hlen : u.length = t.length) : ∀ c ∈ t, isPlain c = true := by
  induction t generalizing u with
  | nil => simp
  | cons c t ih =>
    obtain ⟨hc, ht⟩ := List.forall_mem_cons.mp ht
    rw [List.cons_append] at h
    by_cases hplain : isPlain c = true
    · rw [splitFrom_word_plain hplain] at h
      obtain ⟨v, rfl, hv⟩ := push_eq_cons (splitFrom_ne_nil (by decide) _) h
      obtain ⟨-, hv'⟩ := List.forall_mem_cons.mp hu
      exact List.forall_mem_cons.mpr ⟨hplain, ih ht hv' hv (by simpa using hlen)⟩
    · have hspecial : c = '\'' ∨ c = '"' ∨ c = '\\' := by
        by_cases h₁ : c = '\''
        · exact .inl h₁
        by_cases h₂ : c = '"'
        · exact .inr (.inl h₂)
        · exact .inr (.inr (by simpa [isPlain, hc, h₁, h₂] using hplain))
      have hle := length_le_of_special hspecial ht hrest hu h
      rw [hlen, List.length_cons] at hle
      omega

/-! ## Ends -/

/-- The text ends with a character that is neither white space nor a backslash. -/
def Closes (text : List Char) : Prop :=
  ∃ front c, text = front ++ [c] ∧ Text.isSpace c = false ∧ c ≠ '\\'

theorem Closes.append {t : List Char} (h : Closes t) (s : List Char) : Closes (s ++ t) := by
  obtain ⟨front, c, rfl, hspace, hback⟩ := h
  exact ⟨s ++ front, c, (List.append_assoc ..).symm, hspace, hback⟩

theorem closes_of_plain {text : List Char} (hne : text ≠ []) (h : ∀ c ∈ text, isPlain c = true) :
    Closes text := by
  have hlast := h _ (List.getLast_mem hne)
  refine ⟨text.dropLast, text.getLast hne, (List.dropLast_concat_getLast hne).symm,
    isSpace_of_isPlain hlast, ?_⟩
  intro hback
  rw [hback] at hlast
  exact absurd hlast (by decide)

theorem closes_of_fixed {text : List Char} (h : isFixed text = true) : Closes text := by
  simp only [isFixed, Bool.and_eq_true, Bool.not_eq_true', List.isEmpty_eq_false_iff,
    List.all_eq_true] at h
  exact closes_of_plain h.1.1 h.2

theorem closes_quoteList (word : List Char) : Closes (quoteList word) := by
  rcases quoteList_cases word with ⟨heq, hne, hbare⟩ | heq
  · rw [heq]
    exact closes_of_plain hne fun c hc => isPlain_of_isBare (hbare c hc)
  · exact ⟨'\'' :: quoteBody word, '\'', heq, by decide, by decide⟩

/-! ## Joined words -/

/-- A word as `quoteLoose` writes it. -/
def looseList (word : List Char) : List Char :=
  if word.isEmpty || word.any Text.isSpace then quoteList word else word

theorem toList_join (words : List String) :
    (join words).toList = [' '].intercalate ((words.map String.toList).map looseList) := by
  have hloose (word : String) : (quoteLoose word).toList = looseList word.toList := by
    have hempty : word.isEmpty = word.toList.isEmpty := by
      rw [Bool.eq_iff_iff, String.isEmpty_iff, List.isEmpty_iff, String.toList_eq_nil_iff]
    rw [quoteLoose, looseList, hempty]
    split <;> simp [quote]
  simp [join, Function.comp_def, hloose]

theorem looseList_cases (word : List Char) :
    looseList word = quoteList word ∨
      (looseList word = word ∧ word ≠ [] ∧ ∀ c ∈ word, Text.isSpace c = false) := by
  rw [looseList]
  split
  · exact .inl rfl
  · rename_i h
    simp only [Bool.or_eq_true, List.isEmpty_iff, List.any_eq_true, not_or, not_exists, not_and,
      Bool.not_eq_true] at h
    exact .inr ⟨rfl, h⟩

theorem isFixed_of_splitFrom {word rest : List Char} {us : List (List Char)} (hne : word ≠ [])
    (hspace : ∀ c ∈ word, Text.isSpace c = false) (hrest : ∀ c ∈ rest.head?, Text.isSpace c = true)
    (h : splitFrom .gap (word ++ rest) = .ok (word :: us)) : isFixed word = true := by
  obtain ⟨c, cs, rfl⟩ := List.exists_cons_of_ne_nil hne
  have hhash : c ≠ '#' := by
    rintro rfl
    cases h
  rw [List.cons_append, splitFrom_gap_eq_word (hspace c List.mem_cons_self) hhash] at h
  have hplain := isPlain_of_length_eq hspace hrest hspace h rfl
  simp only [isFixed, Bool.and_eq_true, Bool.not_eq_true', List.isEmpty_eq_false_iff, bne_iff_ne,
    List.all_eq_true]
  exact ⟨⟨hne, by simpa using hhash⟩, hplain⟩

/-- A word that does not change among joined ones: it is empty or has white space in it and gets quotes,
or it means itself. -/
def StaysWhole (word : List Char) : Prop :=
  word = [] ∨ (∃ c ∈ word, Text.isSpace c = true) ∨ isFixed word = true

instance (word : List Char) : Decidable (StaysWhole word) :=
  decidable_of_iff (word.isEmpty ∨ word.any Text.isSpace ∨ isFixed word) (by simp [StaysWhole])

theorem begins_looseList {word : List Char} (h : StaysWhole word) :
    Begins (looseList word) word ∧ Closes (looseList word) := by
  rcases looseList_cases word with heq | ⟨heq, hne, hspace⟩
  · rw [heq]
    exact ⟨begins_quoteList word, closes_quoteList word⟩
  · rcases h with rfl | ⟨c, hc, hblank⟩ | hfixed
    · exact absurd rfl hne
    · rw [hspace c hc] at hblank
      cases hblank
    · rw [heq]
      exact ⟨begins_fixed hfixed, closes_of_fixed hfixed⟩

theorem staysWhole_of_splitFrom {word rest : List Char} {us : List (List Char)}
    (hrest : ∀ c ∈ rest.head?, Text.isSpace c = true)
    (h : splitFrom .gap (looseList word ++ rest) = .ok (word :: us)) : StaysWhole word := by
  by_cases hne : word = []
  · exact .inl hne
  by_cases hblank : ∃ c ∈ word, Text.isSpace c = true
  · exact .inr (.inl hblank)
  have hspace : ∀ c ∈ word, Text.isSpace c = false := by simpa using hblank
  have hloose : looseList word = word := by
    rw [looseList, if_neg (by simpa [hne] using hspace)]
  rw [hloose] at h
  exact .inr (.inr (isFixed_of_splitFrom hne hspace hrest h))

theorem staysWhole_of_joined {words : List (List Char)}
    (h : splitFrom .gap ([' '].intercalate (words.map looseList)) = .ok words) :
    ∀ word ∈ words, StaysWhole word := by
  induction words with
  | nil => simp
  | cons word words ih =>
    cases words with
    | nil =>
      rw [List.map_singleton, List.intercalate_singleton, ← List.append_nil (looseList word)] at h
      simpa using staysWhole_of_splitFrom (by simp) h
    | cons next words =>
      rw [List.map_cons, List.map_cons, List.intercalate_cons_cons, ← List.map_cons, List.append_assoc,
        List.singleton_append] at h
      have hblank : ∀ c ∈ (' ' :: [' '].intercalate ((next :: words).map looseList)).head?,
          Text.isSpace c = true := by
        rintro _ ⟨⟩
        rfl
      have hword := staysWhole_of_splitFrom hblank h
      rw [(begins_looseList hword).1.splitFrom_gap] at h
      refine List.forall_mem_cons.mpr ⟨hword, ih ?_⟩
      cases hrest : splitFrom .gap ([' '].intercalate ((next :: words).map looseList)) with
      | error e => rw [hrest] at h; cases h
      | ok ws =>
        rw [hrest] at h
        simp only [Except.map, Except.ok.injEq, List.cons.injEq, true_and] at h
        rw [h]

theorem splitFrom_joined {words : List (List Char)} :
    splitFrom .gap ([' '].intercalate (words.map looseList)) = .ok words ↔
      ∀ word ∈ words, StaysWhole word := by
  refine ⟨staysWhole_of_joined, fun h => ?_⟩
  have hbegins : ∀ t ∈ words.map fun word => (looseList word, word), Begins t.1 t.2 := by
    intro t ht
    obtain ⟨word, hword, rfl⟩ := List.mem_map.mp ht
    exact (begins_looseList (h word hword)).1
  simpa [List.map_map, Function.comp_def] using splitFrom_intercalate hbegins

theorem closes_joined {words : List (List Char)} (hne : words ≠ [])
    (h : ∀ word ∈ words, StaysWhole word) : Closes ([' '].intercalate (words.map looseList)) := by
  induction words with
  | nil => exact absurd rfl hne
  | cons word words ih =>
    obtain ⟨hword, htail⟩ := List.forall_mem_cons.mp h
    cases words with
    | nil => simpa using (begins_looseList hword).2
    | cons next words =>
      rw [List.map_cons, List.map_cons, List.intercalate_cons_cons, ← List.map_cons]
      exact (ih (List.cons_ne_nil _ _) htail).append _

theorem split_join {words : List String} :
    split (join words) = .ok words ↔ ∀ word ∈ words, StaysWhole word.toList := by
  rw [split_eq_ok, toList_join, splitFrom_joined, List.forall_mem_map]

theorem closes_of_join_eq {args : String} {words : List String} (hne : args ≠ "")
    (hsplit : split args = .ok words) (hjoin : join words = args) : Closes args.toList := by
  rw [← hjoin, split_join] at hsplit
  rw [← hjoin, toList_join]
  refine closes_joined (fun hnil => hne ?_) (List.forall_mem_map.mpr hsplit)
  rw [← hjoin, List.map_eq_nil_iff.mp hnil]
  rfl

end ZoneScript.Shell
