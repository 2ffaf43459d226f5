import ZoneScript.Shell.Word

/-!
# Shell words that are read back

A word is written in pieces, some bare and some quoted, and the reader puts the pieces together again
as it goes. What it does with a piece does not depend on what follows, so a line of written words is
read back word by word.
-/

namespace ZoneScript.Shell

/-! ## Single characters

Only at a backslash does the reader look one character further. -/

theorem splitFrom_gap_cons {c : Char} (h : c ≠ '\\') (cs : List Char) :
    splitFrom .gap (c :: cs) =
      if Text.isSpace c then splitFrom .gap cs
      else if c == '#' then .ok []
      else if c == '\'' then splitFrom .single cs
      else if c == '"' then splitFrom .double cs
      else (splitFrom .word cs).map (push c) := by
  rw [splitFrom.eq_def]
  split <;> simp_all

theorem splitFrom_word_cons {c : Char} (h : c ≠ '\\') (cs : List Char) :
    splitFrom .word (c :: cs) =
      if Text.isSpace c then (splitFrom .gap cs).map ([] :: ·)
      else if c == '\'' then splitFrom .single cs
      else if c == '"' then splitFrom .double cs
      else (splitFrom .word cs).map (push c) := by
  rw [splitFrom.eq_def]
  split <;> simp_all

theorem splitFrom_single_cons (c : Char) (cs : List Char) :
    splitFrom .single (c :: cs) =
      if c == '\'' then splitFrom .word cs else (splitFrom .single cs).map (push c) := rfl

theorem splitFrom_double_cons {c : Char} (h : c ≠ '\\') (cs : List Char) :
    splitFrom .double (c :: cs) =
      if c == '"' then splitFrom .word cs else (splitFrom .double cs).map (push c) := by
  rw [splitFrom.eq_def]
  split <;> simp_all

theorem splitFrom_double_backslash (c : Char) (cs : List Char) :
    splitFrom .double ('\\' :: c :: cs) =
      if isEscapable c then (splitFrom .double cs).map (push c)
      else (splitFrom .double (c :: cs)).map (push '\\') := by
  rw [splitFrom.eq_def]
  rfl

/-- Puts characters in front of the first word. -/
def pushAll (cs : List Char) (ws : List (List Char)) : List (List Char) :=
  cs.foldr push ws

@[simp]
theorem pushAll_cons (c : Char) (cs : List Char) (ws : List (List Char)) :
    pushAll (c :: cs) ws = push c (pushAll cs ws) := rfl

theorem pushAll_append (cs ds : List Char) (ws : List (List Char)) :
    pushAll (cs ++ ds) ws = pushAll cs (pushAll ds ws) :=
  List.foldr_append

theorem pushAll_word (cs w : List Char) (ws : List (List Char)) :
    pushAll cs (w :: ws) = (cs ++ w) :: ws := by
  induction cs with
  | nil => rfl
  | cons c cs ih => rw [pushAll_cons, ih]; rfl

/-- Characters that mean themselves inside a word. -/
def isPlain (c : Char) : Bool :=
  !Text.isSpace c && c != '\'' && c != '"' && c != '\\'

theorem splitFrom_word_plain {c : Char} (h : isPlain c = true) (cs : List Char) :
    splitFrom .word (c :: cs) = (splitFrom .word cs).map (push c) := by
  simp only [isPlain, Bool.and_eq_true, Bool.not_eq_true', bne_iff_ne] at h
  obtain ⟨⟨⟨hspace, hsingle⟩, hdouble⟩, hback⟩ := h
  rw [splitFrom_word_cons hback]
  simp [hspace, hsingle, hdouble]

theorem splitFrom_gap_eq_word {c : Char} (hspace : Text.isSpace c = false) (hhash : c ≠ '#')
    (cs : List Char) : splitFrom .gap (c :: cs) = splitFrom .word (c :: cs) := by
  by_cases hback : c = '\\'
  · subst hback
    cases cs <;> rfl
  · rw [splitFrom_gap_cons hback, splitFrom_word_cons hback]
    simp [hspace, hhash]

theorem isSpace_of_isPlain {c : Char} (h : isPlain c = true) : Text.isSpace c = false := by
  simp only [isPlain, Bool.and_eq_true, Bool.not_eq_true'] at h
  exact h.1.1.1

theorem splitFrom_word_blank (cs : List Char) :
    splitFrom .word (' ' :: cs) = (splitFrom .gap cs).map ([] :: ·) := rfl

/-! ## Pieces of words -/

theorem map_pushAll_nil (r : Except OpenQuote (List (List Char))) : r.map (pushAll []) = r := by
  cases r <;> rfl

theorem map_pushAll_append (r : Except OpenQuote (List (List Char))) (cs ds : List Char) :
    (r.map (pushAll ds)).map (pushAll cs) = r.map (pushAll (cs ++ ds)) := by
  cases r with
  | ok ws => exact congrArg Except.ok (pushAll_append cs ds ws).symm
  | error e => rfl

/-- Inside a word, the text is read as these characters of it. -/
def Continues (text word : List Char) : Prop :=
  ∀ rest, splitFrom .word (text ++ rest) = (splitFrom .word rest).map (pushAll word)

/-- Between words, the text is read as a word that starts with these characters. -/
def Begins (text word : List Char) : Prop :=
  ∀ rest, splitFrom .gap (text ++ rest) = (splitFrom .word rest).map (pushAll word)

theorem Continues.append {s t v w : List Char} (hs : Continues s v) (ht : Continues t w) :
    Continues (s ++ t) (v ++ w) := by
  intro rest
  rw [List.append_assoc, hs, ht, map_pushAll_append]

theorem Begins.append {s t v w : List Char} (hs : Begins s v) (ht : Continues t w) :
    Begins (s ++ t) (v ++ w) := by
  intro rest
  rw [List.append_assoc, hs, ht, map_pushAll_append]

theorem continues_nil : Continues [] [] :=
  fun _ => (map_pushAll_nil _).symm

theorem continues_plain {cs : List Char} (h : ∀ c ∈ cs, isPlain c = true) : Continues cs cs := by
  induction cs with
  | nil => exact continues_nil
  | cons c cs ih =>
    intro rest
    rw [List.cons_append, splitFrom_word_plain (h c List.mem_cons_self),
      ih fun d hd => h d (List.mem_cons_of_mem _ hd)]
    exact map_pushAll_append _ [c] cs

theorem begins_plain {c : Char} {cs : List Char} (h : ∀ d ∈ c :: cs, isPlain d = true)
    (hhash : c ≠ '#') : Begins (c :: cs) (c :: cs) := by
  intro rest
  have hspace := isSpace_of_isPlain (h c List.mem_cons_self)
  rw [List.cons_append, splitFrom_gap_eq_word hspace hhash]
  exact continues_plain h rest

/-- Whether the text means itself as a word, so that it can stand without quotes. -/
def isFixed (cs : List Char) : Bool :=
  !cs.isEmpty && cs.head? != some '#' && cs.all isPlain

theorem begins_fixed {cs : List Char} (h : isFixed cs = true) : Begins cs cs := by
  cases cs with
  | nil => cases h
  | cons c cs =>
    simp only [isFixed, Bool.and_eq_true, bne_iff_ne, List.all_eq_true] at h
    exact begins_plain h.2 fun hc => h.1.2 (congrArg some hc)

theorem continues_fixed {cs : List Char} (h : isFixed cs = true) : Continues cs cs := by
  simp only [isFixed, Bool.and_eq_true, List.all_eq_true] at h
  exact continues_plain h.2

theorem splitFrom_word_blank_eq_ok {cs : List Char} {ws : List (List Char)} :
    splitFrom .word (' ' :: cs) = .ok ([] :: ws) ↔ splitFrom .gap cs = .ok ws := by
  rw [splitFrom_word_blank]
  cases splitFrom .gap cs with
  | error e => simp [Except.map]
  | ok vs => simp [Except.map]

theorem Begins.splitFrom_gap {text word : List Char} (h : Begins text word) (rest : List Char) :
    splitFrom .gap (text ++ ' ' :: rest) = (splitFrom .gap rest).map (word :: ·) := by
  rw [h, splitFrom_word_blank]
  cases splitFrom .gap rest with
  | error e => rfl
  | ok ws => simp [Except.map, pushAll_word]

theorem splitFrom_gap_word {word : List Char} (h : isFixed word = true) (rest : List Char) :
    splitFrom .gap (word ++ ' ' :: rest) = (splitFrom .gap rest).map (word :: ·) :=
  (begins_fixed h).splitFrom_gap rest

/-! ## Quoted pieces -/

theorem splitFrom_single_quoteBody (word rest : List Char) :
    splitFrom .single (quoteBody word ++ '\'' :: rest) =
      (splitFrom .word rest).map (pushAll word) := by
  induction word with
  | nil => exact (map_pushAll_nil _).symm
  | cons c word ih =>
    refine Eq.trans ?_ (map_pushAll_append _ [c] word)
    rw [← ih, quoteBody]
    by_cases h : c = '\''
    · subst h
      rfl
    · simp only [beq_iff_eq, h, if_false, List.cons_append]
      rw [splitFrom_single_cons]
      simp [h]
      rfl

theorem continues_single (word : List Char) :
    Continues ('\'' :: (quoteBody word ++ ['\''])) word := by
  intro rest
  rw [List.cons_append, List.append_assoc]
  exact splitFrom_single_quoteBody word rest

theorem begins_single (word : List Char) : Begins ('\'' :: (quoteBody word ++ ['\''])) word := by
  intro rest
  rw [List.cons_append, List.append_assoc]
  exact splitFrom_single_quoteBody word rest

/-- The characters stand for themselves between double quotes: no quote is among them, and no backslash
in front of a character that it escapes, be it the quote at the end. -/
def isVerbatim : List Char → Bool
  | [] => true
  | c :: cs =>
    c != '"' && !(c == '\\' && (cs ++ ['"']).head?.any isEscapable) && isVerbatim cs

theorem isVerbatim_of_ne {cs : List Char} (h : ∀ c ∈ cs, c ≠ '"' ∧ c ≠ '\\') :
    isVerbatim cs = true := by
  induction cs with
  | nil => rfl
  | cons c cs ih =>
    obtain ⟨hquote, hback⟩ := h c List.mem_cons_self
    simp [isVerbatim, hquote, hback, ih fun d hd => h d (List.mem_cons_of_mem _ hd)]

theorem splitFrom_double_append {value : List Char} (h : isVerbatim value = true)
    (rest : List Char) :
    splitFrom .double (value ++ '"' :: rest) = (splitFrom .word rest).map (pushAll value) := by
  induction value with
  | nil => exact (map_pushAll_nil _).symm
  | cons c value ih =>
    simp only [isVerbatim, Bool.and_eq_true, bne_iff_ne, ne_eq, Bool.not_eq_true'] at h
    obtain ⟨⟨hquote, hescape⟩, hvalue⟩ := h
    refine Eq.trans ?_ (map_pushAll_append _ [c] value)
    rw [← ih hvalue]
    by_cases hback : c = '\\'
    · subst hback
      -- the backslash stays, as the next character is none that it escapes
      cases value with
      | nil => simp [isEscapable] at hescape
      | cons d value =>
        have hd : isEscapable d = false := by simpa using hescape
        rw [List.cons_append, List.cons_append, splitFrom_double_backslash, hd]
        rfl
    · rw [List.cons_append, splitFrom_double_cons hback]
      simp [hquote]
      rfl

theorem continues_double {value : List Char} (h : isVerbatim value = true) :
    Continues ('"' :: (value ++ ['"'])) value := by
  intro rest
  rw [List.cons_append, List.append_assoc]
  exact splitFrom_double_append h rest

/-! ## Quoted words -/

theorem toNat_of_isAlphanum {c : Char} (h : c.isAlphanum = true) :
    (48 ≤ c.toNat ∧ c.toNat ≤ 57) ∨ (65 ≤ c.toNat ∧ c.toNat ≤ 90) ∨
      (97 ≤ c.toNat ∧ c.toNat ≤ 122) := by
  unfold Char.isAlphanum Char.isAlpha Char.isUpper Char.isLower Char.isDigit at h
  simp only [ge_iff_le, UInt32.le_iff_toNat_le, Bool.or_eq_true, Bool.and_eq_true,
    decide_eq_true_eq] at h
  simp only [Char.toNat]
  change ((65 ≤ _ ∧ _ ≤ 90) ∨ (97 ≤ _ ∧ _ ≤ 122)) ∨ (48 ≤ _ ∧ _ ≤ 57) at h
  omega

theorem isPlain_of_isBare {c : Char} (h : isBare c = true) : isPlain c = true := by
  by_cases ha : c.isAlphanum = true
  · have hn := toNat_of_isAlphanum ha
    have hspace : Text.isSpace c = false := by
      simp only [Text.isSpace, Bool.or_eq_false_iff, Bool.and_eq_false_iff,
        decide_eq_false_iff_not, beq_eq_false_iff_ne]
      omega
    have hne {d : Char} (hd : d.toNat < 48 ∨ d.toNat = 92) : c ≠ d := by
      rintro rfl
      omega
    simp [isPlain, hspace, hne (d := '\'') (by decide), hne (d := '"') (by decide),
      hne (d := '\\') (by decide)]
  · simp only [isBare, ha, Bool.false_or, Bool.or_eq_true, beq_iff_eq] at h
    rcases h with (((((((((rfl | rfl) | rfl) | rfl) | rfl) | rfl) | rfl) | rfl) | rfl) | rfl) <;>
      decide

theorem ne_hash_of_isBare {c : Char} (h : isBare c = true) : c ≠ '#' := by
  rintro rfl
  exact absurd h (by decide)

theorem quoteList_cases (word : List Char) :
    (quoteList word = word ∧ word ≠ [] ∧ ∀ c ∈ word, isBare c = true) ∨
      quoteList word = '\'' :: (quoteBody word ++ ['\'']) := by
  rw [quoteList]
  split
  · rename_i h
    simp only [Bool.and_eq_true, Bool.not_eq_true', List.isEmpty_eq_false_iff, List.all_eq_true] at h
    exact .inl ⟨rfl, h⟩
  · exact .inr rfl

theorem continues_quoteList (word : List Char) : Continues (quoteList word) word := by
  rcases quoteList_cases word with ⟨heq, -, hbare⟩ | heq
  · rw [heq]
    exact continues_plain fun c hc => isPlain_of_isBare (hbare c hc)
  · rw [heq]
    exact continues_single word

theorem begins_quoteList (word : List Char) : Begins (quoteList word) word := by
  rcases quoteList_cases word with ⟨heq, hne, hbare⟩ | heq
  · rw [heq]
    obtain ⟨c, cs, rfl⟩ := List.exists_cons_of_ne_nil hne
    exact begins_plain (fun d hd => isPlain_of_isBare (hbare d hd))
      (ne_hash_of_isBare (hbare c List.mem_cons_self))
  · rw [heq]
    exact begins_single word

/-! ## Lines of words -/

/-- The texts with a blank in front of each. -/
def spaced (texts : List (List Char)) : List Char :=
  texts.flatMap (' ' :: ·)

@[simp]
theorem spaced_nil : spaced [] = [] := rfl

@[simp]
theorem spaced_cons (text : List Char) (texts : List (List Char)) :
    spaced (text :: texts) = ' ' :: (text ++ spaced texts) := rfl

theorem spaced_append (ss ts : List (List Char)) : spaced (ss ++ ts) = spaced ss ++ spaced ts :=
  List.flatMap_append

theorem splitFrom_spaced {texts : List (List Char × List Char)}
    (h : ∀ t ∈ texts, Begins t.1 t.2) {rest : List Char} {ws : List (List Char)}
    (hrest : splitFrom .word rest = .ok ([] :: ws)) :
    splitFrom .word (spaced (texts.map (·.1)) ++ rest) = .ok ([] :: (texts.map (·.2) ++ ws)) := by
  induction texts with
  | nil => exact hrest
  | cons t texts ih =>
    obtain ⟨text, word⟩ := t
    have htail := ih fun s hs => h s (List.mem_cons_of_mem _ hs)
    rw [List.map_cons, spaced_cons, List.cons_append, List.append_assoc, splitFrom_word_blank,
      h (text, word) List.mem_cons_self, htail]
    simp [Except.map, pushAll_word]

theorem split_eq_ok {line : String} {words : List String} :
    split line = .ok words ↔ splitFrom .gap line.toList = .ok (words.map String.toList) := by
  rw [split]
  cases splitFrom .gap line.toList with
  | error e => simp [Except.map]
  | ok ws =>
    simp only [Except.map, Except.ok.injEq]
    constructor
    · rintro rfl
      simp
    · rintro rfl
      simp

/-- The text writes these words, with a blank in front of each. -/
def Spells (text : String) (words : List String) : Prop :=
  ∃ texts : List (List Char × List Char), text.toList = spaced (texts.map (·.1)) ∧
    words.map String.toList = texts.map (·.2) ∧ ∀ t ∈ texts, Begins t.1 t.2

theorem spells_empty : Spells "" [] :=
  ⟨[], rfl, rfl, by simp⟩

theorem spells_word {text word : String} (h : Begins text.toList word.toList) :
    Spells (" " ++ text) [word] :=
  ⟨[(text.toList, word.toList)], by simp, rfl, by simpa using h⟩

theorem spells_fixed (word : String) (h : isFixed word.toList = true) : Spells (" " ++ word) [word] :=
  spells_word (begins_fixed h)

theorem Spells.append {s t : String} {vs ws : List String} (hs : Spells s vs) (ht : Spells t ws) :
    Spells (s ++ t) (vs ++ ws) := by
  obtain ⟨ss, hs₁, hs₂, hs₃⟩ := hs
  obtain ⟨ts, ht₁, ht₂, ht₃⟩ := ht
  refine ⟨ss ++ ts, ?_, ?_, fun t ht => (List.mem_append.mp ht).elim (hs₃ t) (ht₃ t)⟩
  · rw [String.toList_append, hs₁, ht₁, List.map_append, spaced_append]
  · rw [List.map_append, List.map_append, hs₂, ht₂]

theorem Spells.splitFrom {text : String} {words : List String} (h : Spells text words)
    {rest : List Char} {ws : List (List Char)} (hrest : splitFrom .word rest = .ok ([] :: ws)) :
    splitFrom .word (text.toList ++ rest) = .ok ([] :: (words.map String.toList ++ ws)) := by
  obtain ⟨texts, htext, hwords, hbegins⟩ := h
  rw [htext, hwords]
  exact splitFrom_spaced hbegins hrest

theorem split_spells {first text : String} {words : List String}
    (hfirst : Begins first.toList first.toList) (h : Spells text words) :
    split (first ++ text) = .ok (first :: words) := by
  have htail := h.splitFrom (rfl : splitFrom .word [] = .ok [[]])
  rw [List.append_nil] at htail
  rw [split_eq_ok, String.toList_append, hfirst, htail]
  simp [Except.map, pushAll_word]

theorem splitFrom_intercalate {texts : List (List Char × List Char)}
    (h : ∀ t ∈ texts, Begins t.1 t.2) :
    splitFrom .gap ([' '].intercalate (texts.map (·.1))) = .ok (texts.map (·.2)) := by
  induction texts with
  | nil => rfl
  | cons t texts ih =>
    obtain ⟨text, word⟩ := t
    obtain ⟨hword, htexts⟩ := List.forall_mem_cons.mp h
    cases texts with
    | nil =>
      rw [List.map_singleton, List.intercalate_singleton, ← List.append_nil text, hword,
        show splitFrom .word [] = .ok [[]] by rfl]
      simp [Except.map, pushAll_word]
    | cons next texts =>
      rw [List.map_cons, List.map_cons, List.intercalate_cons_cons, ← List.map_cons,
        List.append_assoc, List.singleton_append, hword.splitFrom_gap, ih htexts]
      rfl

/-- **Quoted words.** Whatever the words are, quoted and joined with blanks they are cut into the same
words again. So a line may be written anew from its words: it is cut, or refused, as before. -/
theorem split_quoted (words : List String) (line : String) :
    split (" ".intercalate (words.map quote)) = .ok words ∧
      (split line).bind (fun ws => split (" ".intercalate (ws.map quote))) = split line := by
  have hquoted (ws : List String) : split (" ".intercalate (ws.map quote)) = .ok ws := by
    have hbegins : ∀ t ∈ ws.map fun w => (quoteList w.toList, w.toList), Begins t.1 t.2 := by
      intro t ht
      obtain ⟨w, -, rfl⟩ := List.mem_map.mp ht
      exact begins_quoteList w.toList
    have htext : (" ".intercalate (ws.map quote)).toList =
        [' '].intercalate ((ws.map fun w => (quoteList w.toList, w.toList)).map (·.1)) := by
      simp [quote, Function.comp_def]
    rw [split_eq_ok, htext, splitFrom_intercalate hbegins, List.map_map]
    rfl
  refine ⟨hquoted words, ?_⟩
  cases hline : split line with
  | error e => rfl
  | ok ws => exact hquoted ws

end ZoneScript.Shell
