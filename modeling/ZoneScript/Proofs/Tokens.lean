import Mathlib.Data.List.TakeWhile
import ZoneScript.Proofs.Expansion
import ZoneScript.Proofs.Words

/-!
# Tokens in a text

Where a token stands does not depend on what follows it. So the pieces of a text hold all of its tokens,
and a text whose tokens all name scalar variables comes to their values and to what stands between the
tokens, in which there is no token left.
-/

namespace ZoneScript.Template

open Text

/-! ## One token -/

/-- The characters that write the token of a name. -/
inductive IsToken : List Char → List Char → Prop
  | spaced {before name after : List Char} (hbefore : ∀ c ∈ before, isSpace c = true)
      (hname : isName name = true) (hafter : ∀ c ∈ after, isSpace c = true) :
      IsToken (opening ++ (before ++ (name ++ (after ++ closing)))) name

theorem isSpace_of_isNameChar {c : Char} (h : isNameChar c = true) : isSpace c = false := by
  apply Shell.isSpace_of_isPlain
  apply Shell.isPlain_of_isBare
  simp only [isNameChar, Bool.or_eq_true, beq_iff_eq] at h
  rcases h with (halpha | rfl) | rfl
  · simp [Shell.isBare, halpha]
  · decide
  · decide

theorem all_isNameChar_of_isName {name : List Char} (h : isName name = true) :
    ∀ c ∈ name, isNameChar c = true := by
  cases name with
  | nil => cases h
  | cons c cs => exact List.all_eq_true.mp (Bool.and_eq_true_iff.mp h).2

theorem dropWhile_append_head? {p : Char → Bool} {front cs : List Char} (h : ∀ c ∈ front, p c = true)
    (hcs : ∀ c ∈ cs.head?, p c = false) : (front ++ cs).dropWhile p = cs := by
  rw [List.dropWhile_append_of_pos h]
  cases cs with
  | nil => rfl
  | cons c cs => exact List.dropWhile_cons_of_neg (by simp [hcs c rfl])

theorem takeWhile_append_head? {p : Char → Bool} {front cs : List Char} (h : ∀ c ∈ front, p c = true)
    (hcs : ∀ c ∈ cs.head?, p c = false) : (front ++ cs).takeWhile p = front := by
  rw [List.takeWhile_append_of_pos h]
  cases cs with
  | nil => exact List.append_nil front
  | cons c cs => rw [List.takeWhile_cons_of_neg (by simp [hcs c rfl]), List.append_nil]

theorem tokenAt?_append {written name : List Char} (h : IsToken written name) (rest : List Char) :
    tokenAt? (written ++ rest) = some (name, rest) := by
  obtain @⟨before, name, after, hbefore, hname, hafter⟩ := h
  have hchars := all_isNameChar_of_isName hname
  have hclosing : ∀ c ∈ (closing ++ rest).head?, isSpace c = false := by
    rintro _ ⟨⟩
    decide
  -- the name begins where the white space ends, and ends where other white space or a brace begins
  have hstart : ∀ c ∈ (name ++ (after ++ (closing ++ rest))).head?, isSpace c = false := by
    cases name with
    | nil => cases hname
    | cons c cs =>
      rintro _ ⟨⟩
      exact isSpace_of_isNameChar (hchars c List.mem_cons_self)
  have hend : ∀ c ∈ (after ++ (closing ++ rest)).head?, isNameChar c = false := by
    cases after with
    | nil =>
      rintro _ ⟨⟩
      decide
    | cons c cs =>
      rintro _ ⟨⟩
      refine Bool.eq_false_iff.mpr fun hc => ?_
      have hspace := hafter c List.mem_cons_self
      rw [isSpace_of_isNameChar hc] at hspace
      cases hspace
  have hwritten : opening ++ (before ++ (name ++ (after ++ closing))) ++ rest =
      opening ++ (before ++ (name ++ (after ++ (closing ++ rest)))) := by
    simp only [List.append_assoc]
  rw [tokenAt?, hwritten, dropHead?_eq_some.mpr rfl, Option.bind_some]
  simp only [trimStart, dropWhile_append_head? hbefore hstart, takeWhile_append_head? hchars hend,
    dropWhile_append_head? hchars hend, dropWhile_append_head? hafter hclosing, hname, if_true,
    dropHead?_eq_some.mpr rfl, Option.map_some]

theorem tokenAt?_eq_some {cs name rest : List Char} :
    tokenAt? cs = some (name, rest) ↔ ∃ written, IsToken written name ∧ cs = written ++ rest := by
  have hspace (ds : List Char) : ∀ c ∈ ds.takeWhile isSpace, isSpace c = true :=
    fun _ => List.mem_takeWhile_imp
  constructor
  · intro h
    simp only [tokenAt?, Option.bind_eq_some_iff] at h
    obtain ⟨inner, hinner, h⟩ := h
    split at h
    · rename_i hname
      obtain ⟨r, hr, heq⟩ := Option.map_eq_some_iff.mp h
      obtain ⟨rfl, rfl⟩ := Prod.mk.inj heq
      refine ⟨_, .spaced (hspace inner) hname (hspace ((trimStart inner).dropWhile isNameChar)), ?_⟩
      simp only [List.append_assoc]
      rw [← dropHead?_eq_some.mp hr]
      simpa only [trimStart, List.takeWhile_append_dropWhile] using dropHead?_eq_some.mp hinner
    · cases h
  · rintro ⟨written, hwritten, rfl⟩
    exact tokenAt?_append hwritten rest

/-! ## Tokens anywhere -/

/-- Some token stands in the text. -/
def HasToken (cs : List Char) : Prop :=
  ∃ written name, IsToken written name ∧ written <:+: cs

theorem IsToken.mem {written name : List Char} (h : IsToken written name) : '\x7b' ∈ written := by
  cases h
  exact List.mem_cons_self

theorem HasToken.mem {cs : List Char} (h : HasToken cs) : '\x7b' ∈ cs := by
  obtain ⟨written, name, htoken, hinfix⟩ := h
  exact hinfix.subset htoken.mem

theorem hasToken_cons {c : Char} {cs : List Char} :
    HasToken (c :: cs) ↔ (tokenAt? (c :: cs)).isSome = true ∨ HasToken cs := by
  constructor
  · rintro ⟨written, name, htoken, hinfix⟩
    rcases List.infix_cons_iff.mp hinfix with ⟨rest, hrest⟩ | hinfix
    · rw [← hrest, tokenAt?_append htoken]
      exact .inl rfl
    · exact .inr ⟨written, name, htoken, hinfix⟩
  · rintro (h | ⟨written, name, htoken, hinfix⟩)
    · obtain ⟨⟨name, rest⟩, h⟩ := Option.isSome_iff_exists.mp h
      obtain ⟨written, htoken, heq⟩ := tokenAt?_eq_some.mp h
      exact ⟨written, name, htoken, heq ▸ (List.prefix_append written rest).isInfix⟩
    · exact ⟨written, name, htoken, hinfix.trans (List.suffix_cons c cs).isInfix⟩

theorem tokenAt?_of_append {cs rest : List Char} (h : tokenAt? (cs ++ rest) = none) :
    tokenAt? cs = none := by
  cases hread : tokenAt? cs with
  | none => rfl
  | some found =>
    obtain ⟨written, htoken, rfl⟩ := tokenAt?_eq_some.mp hread
    rw [List.append_assoc, tokenAt?_append htoken] at h
    cases h

/-! ## Tokens of one name -/

/-- A token of this name stands in the characters. -/
def HasTokenIn (name : String) (cs : List Char) : Prop :=
  ∃ written, IsToken written name.toList ∧ written <:+: cs

/-- A token of this name stands in the text. -/
def HasTokenOf (name text : String) : Prop :=
  HasTokenIn name text.toList

theorem IsToken.eq_cons {written name : List Char} (h : IsToken written name) :
    ∃ c inner, written = '\x7b' :: '\x7b' :: c :: inner ∧ '\x7b' ∉ c :: inner := by
  obtain @⟨before, name, after, hbefore, hname, hafter⟩ := h
  have hinner : '\x7b' ∉ before ++ (name ++ (after ++ closing)) := by
    simp only [List.mem_append, not_or]
    refine ⟨fun hmem => ?_, fun hmem => ?_, fun hmem => ?_, by decide⟩
    · exact absurd (hbefore _ hmem) (by decide)
    · exact absurd (all_isNameChar_of_isName hname _ hmem) (by decide)
    · exact absurd (hafter _ hmem) (by decide)
  obtain ⟨c, inner, hcons⟩ := List.exists_cons_of_ne_nil
    (l := before ++ (name ++ (after ++ closing))) (by simp [closing])
  exact ⟨c, inner, by rw [hcons]; rfl, hcons ▸ hinner⟩

theorem exists_eq_append_of_not_mem {c : Char} {front part rest cs : List Char} (h : c ∉ front)
    (heq : cs ++ c :: part = front ++ rest) : ∃ more, cs = front ++ more := by
  induction front generalizing cs with
  | nil => exact ⟨cs, rfl⟩
  | cons d ds ih =>
    cases cs with
    | nil => exact absurd (List.cons.inj heq).1 (List.ne_of_not_mem_cons h)
    | cons e es =>
      obtain ⟨hhead, htail⟩ := List.cons.inj heq
      obtain ⟨more, rfl⟩ := ih (List.not_mem_of_not_mem_cons h) htail
      exact ⟨more, by rw [hhead]; rfl⟩

theorem IsToken.eq_or_behind {written name token other front back rest : List Char}
    (h : IsToken written name) (htoken : IsToken token other)
    (heq : front ++ (token ++ back) = written ++ rest) :
    (front = [] ∧ token = written ∧ other = name) ∨ ∃ more, front = written ++ more := by
  obtain ⟨c, inner, hwritten, hinner⟩ := h.eq_cons
  obtain ⟨d, tail, htail, -⟩ := htoken.eq_cons
  match front with
  | [] =>
    have hread := tokenAt?_append h rest
    rw [← heq, List.nil_append, tokenAt?_append htoken] at hread
    cases hread
    exact .inl ⟨rfl, List.append_cancel_right heq, rfl⟩
  | [a] =>
    rw [hwritten, htail] at heq
    have hbrace := (List.cons.inj (List.cons.inj (List.cons.inj heq).2).2).1
    exact absurd (hbrace ▸ List.mem_cons_self) hinner
  | a :: b :: front =>
    rw [hwritten, htail] at heq
    obtain ⟨hfirst, heq⟩ := List.cons.inj heq
    obtain ⟨hsecond, heq⟩ := List.cons.inj heq
    obtain ⟨more, hmore⟩ := exists_eq_append_of_not_mem hinner heq
    exact .inr ⟨more, by rw [hwritten, hfirst, hsecond, hmore]; rfl⟩

theorem not_hasTokenIn_nil (name : String) : ¬ HasTokenIn name [] := by
  rintro ⟨written, htoken, hpart⟩
  exact absurd (hpart.subset htoken.mem) List.not_mem_nil

theorem hasTokenIn_append_iff {name : String} {written other cs : List Char} (h : IsToken written other) :
    HasTokenIn name (written ++ cs) ↔ name.toList = other ∨ HasTokenIn name cs := by
  constructor
  · rintro ⟨token, htoken, front, back, heq⟩
    rw [List.append_assoc] at heq
    rcases h.eq_or_behind htoken heq with ⟨-, -, hname⟩ | ⟨more, rfl⟩
    · exact .inl hname
    · rw [List.append_assoc, List.append_cancel_left_eq] at heq
      exact .inr ⟨token, htoken, more, back, by rw [List.append_assoc, heq]⟩
  · rintro (rfl | ⟨token, htoken, hpart⟩)
    · exact ⟨written, h, (List.prefix_append written cs).isInfix⟩
    · exact ⟨token, htoken, hpart.trans (List.suffix_append written cs).isInfix⟩

theorem hasTokenIn_cons_iff {name : String} {c : Char} {cs : List Char}
    (hread : tokenAt? (c :: cs) = none) : HasTokenIn name (c :: cs) ↔ HasTokenIn name cs := by
  constructor
  · rintro ⟨token, htoken, hinfix⟩
    rcases List.infix_cons_iff.mp hinfix with ⟨rest, hrest⟩ | hinfix
    · rw [← hrest, tokenAt?_append htoken] at hread
      cases hread
    · exact ⟨token, htoken, hinfix⟩
  · rintro ⟨token, htoken, hinfix⟩
    exact ⟨token, htoken, hinfix.trans (List.suffix_cons c cs).isInfix⟩

/-! ## Pieces -/

theorem pieces_token {c : Char} {cs written name rest : List Char} (h : IsToken written name)
    (hcs : c :: cs = written ++ rest) : pieces (c :: cs) = .token written name :: pieces rest := by
  have hread : tokenAt? (c :: cs) = some (name, rest) := hcs ▸ tokenAt?_append h rest
  rw [pieces]
  split
  · rename_i heq
    rw [hread] at heq
    cases heq
    rw [hcs]
    simp
  · simp_all

theorem pieces_char {c : Char} {cs : List Char} (h : tokenAt? (c :: cs) = none) :
    pieces (c :: cs) = .char c :: pieces cs := by
  rw [pieces]
  split
  · simp_all
  · rfl

theorem mem_tokenNames {name text : String} : name ∈ tokenNames text ↔ HasTokenOf name text := by
  rw [tokenNames, HasTokenOf]
  generalize text.toList = cs
  induction cs using pieces.induct with
  | case1 =>
    rw [pieces]
    exact iff_of_false List.not_mem_nil (not_hasTokenIn_nil name)
  | case2 c cs other rest hread ih =>
    obtain ⟨written, hwritten, hcs⟩ := tokenAt?_eq_some.mp hread
    rw [pieces_token hwritten hcs, hcs, hasTokenIn_append_iff hwritten, List.filterMap_cons]
    simp only [List.mem_cons, ih]
    refine or_congr_left ⟨?_, ?_⟩
    · rintro rfl
      exact String.toList_ofList
    · rintro rfl
      exact String.ofList_toList.symm
  | case3 c cs hread ih =>
    rw [pieces_char hread, hasTokenIn_cons_iff hread, List.filterMap_cons]
    exact ih

/-! ## Tokens replaced -/

variable {vars : List (String × Variable)}

/-- The second text is the first one with each token replaced by the value of the scalar variable that
it names. What stands between the tokens holds none. -/
inductive Filled (vars : List (String × Variable)) : List Char → List Char → Prop
  | plain {cs : List Char} (h : ¬ HasToken cs) : Filled vars cs cs
  | token {front written name source result : List Char} {value : String} (hfront : ¬ HasToken front)
      (htoken : IsToken written name)
      (hvalue : Ordered.find? (.ofList name) vars = some (.scalar value))
      (h : Filled vars source result) :
      Filled vars (front ++ (written ++ source)) (front ++ (value.toList ++ result))

theorem not_hasToken_cons {c : Char} {cs rest : List Char} (h : ¬ HasToken cs)
    (hread : tokenAt? (c :: (cs ++ rest)) = none) : ¬ HasToken (c :: cs) := by
  rw [← List.cons_append] at hread
  rw [hasToken_cons, tokenAt?_of_append hread]
  simpa using h

theorem Filled.cons {c : Char} {source result : List Char} (h : Filled vars source result)
    (hread : tokenAt? (c :: source) = none) : Filled vars (c :: source) (c :: result) := by
  cases h with
  | plain h =>
    rw [← List.append_nil source] at hread
    exact .plain (not_hasToken_cons h hread)
  | token hfront htoken hvalue h =>
    exact .token (not_hasToken_cons hfront hread) htoken hvalue h

theorem filled_substitute {text : String}
    (h : ∀ name ∈ tokenNames text, ∃ value, Ordered.find? name vars = some (.scalar value)) :
    Filled vars text.toList (substitute vars text).toList := by
  rw [substitute, replaceTokens, String.toList_ofList]
  rw [tokenNames] at h
  generalize text.toList = cs at h ⊢
  induction cs using pieces.induct with
  | case1 =>
    rw [pieces]
    exact .plain fun h => List.not_mem_nil h.mem
  | case2 c cs name rest hread ih =>
    obtain ⟨written, htoken, hcs⟩ := tokenAt?_eq_some.mp hread
    rw [pieces_token htoken hcs] at h ⊢
    obtain ⟨⟨value, hvalue⟩, hrest⟩ := List.forall_mem_cons.mp h
    simp only [hcs, List.flatMap_cons, hvalue]
    exact .token (fun h => List.not_mem_nil h.mem) htoken hvalue (ih hrest)
  | case3 c cs hread ih =>
    rw [pieces_char hread] at h ⊢
    exact (ih h).cons hread

theorem mem_substitute {c : Char} {text : String} (h : c ∈ (substitute vars text).toList)
    (htext : ∀ name ∈ tokenNames text, ∃ value, Ordered.find? name vars = some (.scalar value)) :
    .char c ∈ pieces text.toList ∨
      ∃ name value, Ordered.find? name vars = some (.scalar value) ∧ c ∈ value.toList := by
  rw [substitute, replaceTokens, String.toList_ofList] at h
  obtain ⟨piece, hpiece, hc⟩ := List.mem_flatMap.mp h
  cases piece with
  | char d =>
    rw [List.mem_singleton.mp hc]
    exact .inl hpiece
  | token written name =>
    obtain ⟨value, hvalue⟩ := htext (.ofList name) (List.mem_filterMap.mpr ⟨_, hpiece, rfl⟩)
    simp only [hvalue] at hc
    exact .inr ⟨.ofList name, value, hvalue, hc⟩

end ZoneScript.Template
