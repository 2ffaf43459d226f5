import ZoneScript.Json.Tree
import ZoneScript.Proofs.PlainTrees

/-!
# JSON that is read as JSON

A reader that knows JSON alone finds the tree again that a text was written for, whatever its texts are: it
takes the escapes back, and it neither folds lines nor looks for the marks of documents.
-/

namespace ZoneScript.Json

open Node (IsPlain ofFields ofFields_cons scalarText?)
open Text (head?_toDigits_ne isDigit_of_mem_toDigits not_mem_toDigits showInt)
open Yaml (isBare isWritten_escapedChar shortEscapes)

variable {level fuel : Nat} {rest : List Char}

/-! ## Strings -/

theorem readBody?_escapedChar (c : Char) :
    readBody? (escapedChar c ++ rest) = (readBody? rest).map fun (body, rest) => (escapedChar c ++ body, rest) := by
  have hshorts : ∀ p ∈ shortEscapes, isShortEscape p.1 = true ∧ ¬ p.1 = 'u' := by decide
  have hdigit : ∀ n : Fin 32, isHexDigit (hexDigit (n / 16)) = true ∧ isHexDigit (hexDigit n) = true := by decide
  have hwritten := isWritten_escapedChar c
  generalize escapedChar c = cs at hwritten ⊢
  cases hwritten with
  | bare hbare =>
    simp only [isBare, Bool.and_eq_true, bne_iff_ne, Bool.not_eq_true', decide_eq_false_iff_not] at hbare
    obtain ⟨⟨hquote, hbackslash⟩, hcontrol⟩ := hbare
    rw [List.singleton_append, readBody?]
    · simp [hquote, hbackslash, hcontrol]
    all_goals
      intros
      contradiction
  | short hshort =>
    obtain ⟨hescape, hlong⟩ := hshorts _ hshort
    rw [List.cons_append, List.singleton_append, readBody?, if_pos hescape]
    · rfl
    · intros
      contradiction
  | long hcontrol =>
    have hzero : isHexDigit '0' = true := rfl
    obtain ⟨ha, hb⟩ := hdigit ⟨c.toNat, hcontrol⟩
    simp only [List.cons_append, List.nil_append]
    rw [readBody?]
    simp [ha, hb, hzero]

theorem decode?_escapedChar (c : Char) (cs : List Char) :
    decode? (escapedChar c ++ cs) = (decode? cs).map (c :: ·) := by
  have hshorts : ∀ p ∈ shortEscapes, shortEscape p.1 = p.2 ∧ ¬ p.1 = 'u' := by decide
  have hnumber : ∀ n : Fin 32, hexValue ['0', '0', hexDigit (n / 16), hexDigit n] = n.val := by decide
  have hwritten := isWritten_escapedChar c
  generalize escapedChar c = written at hwritten ⊢
  cases hwritten with
  | bare hbare =>
    have hbackslash : ¬ c = '\\' := by
      rintro rfl
      cases hbare
    rw [List.singleton_append, decode?]
    all_goals
      intros
      contradiction
  | short hshort =>
    obtain ⟨hvalue, hlong⟩ := hshorts _ hshort
    rw [List.cons_append, List.singleton_append, decode?, hvalue]
    intros
    contradiction
  | long hcontrol =>
    have hvalue := hnumber ⟨c.toNat, hcontrol⟩
    have hsmall : ¬ 0xD800 ≤ c.toNat ∧ ¬ 0xDC00 ≤ c.toNat := by omega
    simp only [List.cons_append, List.nil_append]
    rw [decode?.eq_def]
    simp [hvalue, hsmall]

theorem readBody?_flatMap (cs rest : List Char) :
    readBody? (cs.flatMap escapedChar ++ '"' :: rest) = some (cs.flatMap escapedChar, rest) := by
  induction cs with
  | nil => rfl
  | cons c cs ih =>
    rw [List.flatMap_cons, List.append_assoc, readBody?_escapedChar, ih]
    rfl

theorem decode?_flatMap (cs : List Char) : decode? (cs.flatMap escapedChar) = some cs := by
  induction cs with
  | nil => rfl
  | cons c cs ih =>
    rw [List.flatMap_cons, decode?_escapedChar, ih]
    rfl

/-! ## Numbers -/

/-- No number goes on there. -/
def Ends (rest : List Char) : Prop :=
  ∀ c ∈ rest.head?, c = ',' ∨ c = '\n'

theorem ends_items (level : Nat) (items : List Node) (rest : List Char) :
    Ends (writeItems level items ++ (newLine level ++ ']' :: rest)) := by
  cases items <;> simp [Ends, writeItems, newLine]

theorem ends_entries (level : Nat) (entries : Node.Entries) (rest : List Char) :
    Ends (writeEntries level entries ++ (newLine level ++ '\x7d' :: rest)) := by
  rcases entries with _ | ⟨⟨key, value⟩, entries⟩ <;> simp [Ends, writeEntries, newLine]

theorem Ends.not_isDigit (h : Ends rest) : ∀ c ∈ rest.head?, c.isDigit = false := by
  intro c hc
  rcases h c hc with rfl | rfl <;> rfl

theorem readDigits?_append {digits : List Char} (hdigits : ∀ c ∈ digits, c.isDigit = true)
    (hne : digits ≠ []) (h : Ends rest) : readDigits? (digits ++ rest) = some (digits, rest) := by
  have hstop : rest.takeWhile Char.isDigit = [] ∧ rest.dropWhile Char.isDigit = rest := by
    cases rest with
    | nil => exact ⟨rfl, rfl⟩
    | cons c cs => simp [h.not_isDigit c rfl]
  have htake : (digits ++ rest).takeWhile Char.isDigit = digits := by
    rw [List.takeWhile_append_of_pos hdigits, hstop.1, List.append_nil]
  have hdrop : (digits ++ rest).dropWhile Char.isDigit = rest := by
    rw [List.dropWhile_append_of_pos hdigits, hstop.2]
  simp [readDigits?, htake, hdrop, hne]

theorem head?_toDigits_append (n : Nat) : (Nat.toDigits 10 n ++ rest).head? = (Nat.toDigits 10 n).head? := by
  obtain ⟨c, cs, h⟩ := List.exists_cons_of_ne_nil (Nat.toDigits_ne_nil (n := n) (b := 10))
  rw [h]
  rfl

theorem readWhole?_toDigits (n : Nat) (h : Ends rest) :
    readWhole? (Nat.toDigits 10 n ++ rest) = some (Nat.toDigits 10 n, rest) := by
  by_cases hn : n = 0
  · have hnext : (rest.head?.map Char.isDigit).getD false = false := by
      cases rest with
      | nil => rfl
      | cons c cs => exact h.not_isDigit c rfl
    subst hn
    change readWhole? ('0' :: rest) = some (['0'], rest)
    rw [readWhole?, hnext]
    rfl
  · have hfirst : ∀ cs, Nat.toDigits 10 n ++ rest ≠ '0' :: cs := by
      intro cs heq
      refine head?_toDigits_ne hn ?_
      rw [← head?_toDigits_append n, heq]
      rfl
    rw [readWhole?.eq_2 _ hfirst]
    exact readDigits?_append (fun c => isDigit_of_mem_toDigits) Nat.toDigits_ne_nil h

theorem readFraction?_of_ends (h : Ends rest) : readFraction? rest = some ([], rest) := by
  rw [readFraction?.eq_2]
  rintro cs rfl
  simpa using h '.' rfl

theorem readExponent?_of_ends (h : Ends rest) : readExponent? rest = some ([], rest) := by
  cases rest with
  | nil => rfl
  | cons c cs => rcases h c rfl with rfl | rfl <;> rfl

theorem readNumber?_showInt (n : Int) (h : Ends rest) :
    readNumber? (showInt n ++ rest) = some (showInt n, rest) := by
  cases n with
  | ofNat n =>
    have hsign : ∀ cs, Nat.toDigits 10 n ++ rest ≠ '-' :: cs := by
      intro cs heq
      refine not_mem_toDigits (c := '-') rfl n (List.mem_of_head? ?_)
      rw [← head?_toDigits_append n, heq]
      rfl
    rw [showInt, readNumber?.eq_def]
    simp [readWhole?_toDigits n h, readFraction?_of_ends h, readExponent?_of_ends h]
  | negSucc n =>
    rw [showInt, List.cons_append, readNumber?]
    simp [readWhole?_toDigits (n + 1) h, readFraction?_of_ends h, readExponent?_of_ends h]

theorem numberNode_showInt {n : Int} (h : Text.fitsBits 64 n = true) :
    numberNode (.ofList (showInt n)) = some (.int n) := by
  simp [numberNode, Text.readInteger?_showInt, h]

/-! ## Blanks -/

theorem skipBlanks_newLine (cs : List Char) : skipBlanks (newLine level ++ cs) = skipBlanks cs := by
  refine List.dropWhile_append_of_pos fun c hc => ?_
  rcases mem_newLine hc with rfl | rfl <;> rfl

theorem readValue?_congr {cs ds : List Char} (h : skipBlanks cs = skipBlanks ds) :
    readValue? fuel cs = readValue? fuel ds := by
  cases fuel with
  | zero => rfl
  | succ fuel => rw [readValue?, readValue?, h]

theorem readItems?_newLine (cs : List Char) : readItems? fuel (newLine level ++ cs) = readItems? fuel cs := by
  cases fuel with
  | zero => rfl
  | succ fuel => rw [readItems?, readItems?, readValue?_congr (skipBlanks_newLine cs)]

theorem readMembers?_newLine (cs : List Char) :
    readMembers? fuel (newLine level ++ cs) = readMembers? fuel cs := by
  cases fuel with
  | zero => rfl
  | succ fuel => rw [readMembers?, readMembers?, skipBlanks_newLine]

/-! ## Trees -/

/-- A tree that is found again in its text, with twice the length of the text as fuel. -/
def IsReadBack (node : Node) : Prop :=
  ∀ (level fuel : Nat) (rest : List Char), Ends rest → 2 * (write level node).length ≤ fuel →
    ∃ json, readValue? fuel (write level node ++ rest) = some (json, rest) ∧ node? json = some node

theorem isReadBack_bool (b : Bool) : IsReadBack (.bool b) := by
  intro level fuel rest hends hfuel
  cases fuel with
  | zero => cases b <;> cases hfuel
  | succ fuel => cases b <;> exact ⟨_, rfl, rfl⟩

theorem isReadBack_str (s : String) : IsReadBack (.str s) := by
  intro level fuel rest hends hfuel
  cases fuel with
  | zero => cases hfuel
  | succ fuel =>
    have hbody := readBody?_flatMap s.toList rest
    refine ⟨.string (.ofList (s.toList.flatMap escapedChar)), ?_, ?_⟩
    · rw [write, stringText, List.cons_append, List.append_assoc, List.singleton_append, readValue?]
      simp [skipBlanks, isBlank, hbody]
    · simp [node?, decode?_flatMap]

/-- The first character of a number. -/
def startsNumber (c : Char) : Bool :=
  c == '-' || c.isDigit

theorem exists_showInt (n : Int) : ∃ c cs, showInt n = c :: cs ∧ startsNumber c = true := by
  cases n with
  | ofNat n =>
    obtain ⟨c, cs, h⟩ := List.exists_cons_of_ne_nil (Nat.toDigits_ne_nil (n := n) (b := 10))
    have hdigit : c.isDigit = true := isDigit_of_mem_toDigits (h ▸ List.mem_cons_self)
    exact ⟨c, cs, h, by simp [startsNumber, hdigit]⟩
  | negSucc n => exact ⟨'-', _, rfl, rfl⟩

theorem readValue?_number {c : Char} {cs : List Char} (h : startsNumber c = true) :
    readValue? (fuel + 1) (c :: cs) =
      (readNumber? (c :: cs)).map fun (text, rest) => (.number (.ofList text), rest) := by
  have hother (d : Char) (hd : startsNumber d = false) : c ≠ d := by
    rintro rfl
    rw [h] at hd
    cases hd
  have hblank : isBlank c = false := by
    simp [isBlank, hother ' ' rfl, hother '\t' rfl, hother '\n' rfl, hother '\r' rfl]
  rw [readValue?, skipBlanks, List.dropWhile_cons_of_neg (by simp [hblank])]
  split
  any_goals
    rename_i heq
    exact absurd (List.cons.inj heq).1 (hother _ rfl)
  · rename_i heq
    cases heq
  · rfl

theorem isReadBack_int {n : Int} (hfits : Text.fitsBits 64 n = true) : IsReadBack (.int n) := by
  intro level fuel rest hends hfuel
  obtain ⟨c, cs, hshow, hstart⟩ := exists_showInt n
  have hnumber := readNumber?_showInt n hends
  refine ⟨.number (.ofList (showInt n)), ?_, numberNode_showInt hfits⟩
  rw [write, hshow] at hfuel ⊢
  rw [hshow] at hnumber
  rw [List.length_cons] at hfuel
  obtain ⟨fuel, rfl⟩ := Nat.exists_eq_add_one.mpr (show 0 < fuel by omega)
  rw [List.cons_append, readValue?_number hstart, ← List.cons_append, hnumber]
  rfl

/-! ## Lists and mappings -/

theorem exists_write {depth : Nat} {node : Node} (h : node.IsPlain depth) (level : Nat) :
    ∃ c cs, write level node = c :: cs ∧ isBlank c = false ∧ c ≠ ']' := by
  cases h with
  | bool b => cases b <;> exact ⟨_, _, rfl, rfl, by decide⟩
  | int =>
    obtain ⟨c, cs, hshow, hstart⟩ := exists_showInt _
    refine ⟨c, cs, hshow, ?_, ?_⟩
    · cases hblank : isBlank c with
      | false => rfl
      | true =>
        simp only [isBlank, Bool.or_eq_true, beq_iff_eq] at hblank
        rcases hblank with ((rfl | rfl) | rfl) | rfl <;> cases hstart
    · rintro rfl
      cases hstart
  | str => exact ⟨_, _, rfl, rfl, by decide⟩
  | @seq _ items => cases items <;> exact ⟨_, _, rfl, rfl, by decide⟩
  | @map _ fields => cases fields <;> exact ⟨_, _, rfl, rfl, by decide⟩

theorem skipBlanks_mark {c : Char} (h : isBlank c = false) (cs : List Char) :
    skipBlanks (newLine level ++ c :: cs) = c :: cs := by
  rw [skipBlanks_newLine, skipBlanks, List.dropWhile_cons_of_neg (by simp [h])]

theorem skipBlanks_comma (cs : List Char) : skipBlanks (',' :: cs) = ',' :: cs :=
  rfl

theorem skipBlanks_colon (cs : List Char) : skipBlanks (':' :: cs) = ':' :: cs :=
  rfl

theorem skipBlanks_quote (cs : List Char) : skipBlanks ('"' :: cs) = '"' :: cs :=
  rfl

theorem readItems?_succ {node : Node} {behind : List Char} (h : IsReadBack node) (hends : Ends behind)
    (hfuel : 2 * (write level node).length ≤ fuel) :
    ∃ json, node? json = some node ∧
      (∀ rest, skipBlanks behind = ']' :: rest →
        readItems? (fuel + 1) (write level node ++ behind) = some ([json], rest)) ∧
      (∀ rest, skipBlanks behind = ',' :: rest → readItems? (fuel + 1) (write level node ++ behind) =
        (readItems? fuel rest).map fun (items, rest) => (json :: items, rest)) := by
  obtain ⟨json, hjson, hnode⟩ := h level fuel behind hends hfuel
  refine ⟨json, hnode, fun rest hlast => ?_, fun rest hmore => ?_⟩
  · rw [readItems?, hjson]
    simp only [hlast]
  · rw [readItems?, hjson]
    simp only [hmore]

theorem readItems?_write (level : Nat) (rest : List Char) {fuel : Nat} {item : Node} {items : List Node}
    (hall : ∀ node ∈ item :: items, IsReadBack node)
    (hfuel : 2 * (write (level + 1) item ++ writeItems level items).length < fuel) :
    ∃ jsons, nodes? jsons = some (item :: items) ∧ readItems? fuel
      (write (level + 1) item ++ (writeItems level items ++ (newLine level ++ ']' :: rest))) =
        some (jsons, rest) := by
  obtain ⟨fuel, rfl⟩ := Nat.exists_eq_add_one.mpr (Nat.zero_lt_of_lt hfuel)
  rw [List.length_append] at hfuel
  obtain ⟨hitem, hitems⟩ := List.forall_mem_cons.mp hall
  have hfirst : 2 * (write (level + 1) item).length ≤ fuel := by omega
  cases items with
  | nil =>
    obtain ⟨json, hnode, hlast, -⟩ := readItems?_succ hitem (ends_items level [] rest) hfirst
    exact ⟨[json], by simp [nodes?, hnode], hlast rest (skipBlanks_mark rfl rest)⟩
  | cons next items =>
    -- each item takes one unit of fuel, for which its comma makes up
    rw [writeItems, List.cons_append, List.append_assoc, List.append_assoc]
    rw [writeItems] at hfuel
    simp only [List.length_cons, List.length_append] at hfuel
    have hroom : 2 * (write (level + 1) next ++ writeItems level items).length < fuel := by
      rw [List.length_append]
      omega
    obtain ⟨json, hnode, -, hmore⟩ := readItems?_succ hitem (ends_items level (next :: items) rest) hfirst
    obtain ⟨jsons, hnodes, htail⟩ := readItems?_write level rest hitems hroom
    refine ⟨json :: jsons, by simp [nodes?, hnode, hnodes], ?_⟩
    rw [writeItems, List.cons_append, List.append_assoc, List.append_assoc] at hmore
    rw [hmore _ (skipBlanks_comma _), readItems?_newLine, htail]
    rfl

theorem readMembers?_succ (key : String) {value : Node} {behind : List Char} (h : IsReadBack value)
    (hends : Ends behind) (hfuel : 2 * (write level value).length ≤ fuel) :
    ∃ body json, decode? (String.toList body) = some key.toList ∧ node? json = some value ∧
      (∀ rest, skipBlanks behind = '\x7d' :: rest →
        readMembers? (fuel + 1) (stringText key ++ (':' :: ' ' :: (write level value ++ behind))) =
          some ([(body, json)], rest)) ∧
      (∀ rest, skipBlanks behind = ',' :: rest →
        readMembers? (fuel + 1) (stringText key ++ (':' :: ' ' :: (write level value ++ behind))) =
          (readMembers? fuel rest).map fun (members, rest) => ((body, json) :: members, rest)) := by
  obtain ⟨json, hjson, hnode⟩ := h level fuel behind hends hfuel
  have hblank : skipBlanks (' ' :: (write level value ++ behind)) = skipBlanks (write level value ++ behind) :=
    rfl
  have hvalue : readValue? fuel (' ' :: (write level value ++ behind)) = some (json, behind) := by
    rw [readValue?_congr hblank, hjson]
  have hbody := readBody?_flatMap key.toList (':' :: ' ' :: (write level value ++ behind))
  refine ⟨.ofList (key.toList.flatMap escapedChar), json, by simp [decode?_flatMap], hnode,
    fun rest hlast => ?_, fun rest hmore => ?_⟩
  · rw [stringText, List.cons_append, List.append_assoc, List.singleton_append, readMembers?, skipBlanks_quote]
    simp only [hbody, skipBlanks_colon, hvalue, hlast]
  · rw [stringText, List.cons_append, List.append_assoc, List.singleton_append, readMembers?, skipBlanks_quote]
    simp only [hbody, skipBlanks_colon, hvalue, hmore]

theorem readMembers?_write (level : Nat) (rest : List Char) {fuel : Nat} {field : String × Node}
    {fields : List (String × Node)}
    (hall : ∀ f ∈ field :: fields, IsReadBack f.2)
    (hfuel : 2 * (stringText field.1 ++ write (level + 1) field.2
      ++ writeEntries level (ofFields fields)).length < fuel) :
    ∃ members, entries? members = some (ofFields (field :: fields)) ∧ readMembers? fuel
      (stringText field.1 ++ (':' :: ' ' :: (write (level + 1) field.2
        ++ (writeEntries level (ofFields fields) ++ (newLine level ++ '\x7d' :: rest))))) =
          some (members, rest) := by
  obtain ⟨fuel, rfl⟩ := Nat.exists_eq_add_one.mpr (Nat.zero_lt_of_lt hfuel)
  rw [List.length_append, List.length_append] at hfuel
  obtain ⟨hfield, hfields⟩ := List.forall_mem_cons.mp hall
  have hfirst : 2 * (write (level + 1) field.2).length ≤ fuel := by omega
  cases fields with
  | nil =>
    obtain ⟨body, json, hkey, hnode, hlast, -⟩ := readMembers?_succ field.1 hfield
      (ends_entries level [] rest) hfirst
    exact ⟨[(body, json)], by simp [entries?, hkey, hnode, ofFields], hlast rest (skipBlanks_mark rfl rest)⟩
  | cons next fields =>
    obtain ⟨body, json, hkey, hnode, -, hmore⟩ := readMembers?_succ field.1 hfield
      (ends_entries level (ofFields (next :: fields)) rest) hfirst
    rw [ofFields_cons, writeEntries] at hfuel hmore
    simp only [scalarText?, Option.getD_some, List.length_cons, List.length_append] at hfuel hmore
    have hroom : 2 * (stringText next.1 ++ write (level + 1) next.2
        ++ writeEntries level (ofFields fields)).length < fuel := by
      rw [List.length_append, List.length_append]
      omega
    obtain ⟨members, hentries, htail⟩ := readMembers?_write level rest hfields hroom
    refine ⟨(body, json) :: members, by simp [entries?, hkey, hnode, hentries, ofFields_cons], ?_⟩
    rw [ofFields_cons, writeEntries]
    simp only [scalarText?, Option.getD_some, List.append_assoc, List.cons_append, List.nil_append]
      at hmore ⊢
    rw [hmore _ (skipBlanks_comma _), readMembers?_newLine, htail]
    rfl

/-! ## Every tree -/

theorem readValue?_list {cs : List Char} {c : Char} (hclose : c ≠ ']') (hblank : isBlank c = false) :
    readValue? (fuel + 1) ('[' :: (newLine level ++ c :: cs)) =
      (readItems? fuel (c :: cs)).map fun (items, rest) => (.array items, rest) := by
  rw [readValue?]
  simp only [skipBlanks, List.dropWhile_cons_of_neg (show ¬ isBlank '[' = true by decide)]
  rw [← skipBlanks, skipBlanks_mark hblank]
  split
  · rename_i heq
    exact absurd (List.cons.inj heq).1 hclose
  · rfl

theorem readValue?_mapping {cs : List Char} {c : Char} (hclose : c ≠ '\x7d') (hblank : isBlank c = false) :
    readValue? (fuel + 1) ('\x7b' :: (newLine level ++ c :: cs)) =
      (readMembers? fuel (c :: cs)).map fun (members, rest) => (.object members, rest) := by
  rw [readValue?]
  simp only [skipBlanks, List.dropWhile_cons_of_neg (show ¬ isBlank '\x7b' = true by decide)]
  rw [← skipBlanks, skipBlanks_mark hblank]
  split
  · rename_i heq
    exact absurd (List.cons.inj heq).1 hclose
  · rfl

theorem isReadBack_seq {items : List Node} {depth : Nat} (hplain : ∀ item ∈ items, item.IsPlain depth)
    (h : ∀ item ∈ items, IsReadBack item) : IsReadBack (.seq items) := by
  intro level fuel rest hends hfuel
  cases items with
  | nil =>
    have hroom : 4 ≤ fuel := by simpa [write] using hfuel
    obtain ⟨fuel, rfl⟩ := Nat.exists_eq_add_one.mpr (show 0 < fuel by omega)
    exact ⟨_, rfl, rfl⟩
  | cons item items =>
    rw [write] at hfuel ⊢
    simp only [List.length_cons, List.length_append] at hfuel
    obtain ⟨fuel, rfl⟩ := Nat.exists_eq_add_one.mpr (show 0 < fuel by omega)
    have hroom : 2 * (write (level + 1) item ++ writeItems level items).length < fuel := by
      rw [List.length_append]
      omega
    obtain ⟨jsons, hnodes, hread⟩ := readItems?_write level rest h hroom
    obtain ⟨c, cs, hwrite, hblank, hclose⟩ := exists_write (hplain item List.mem_cons_self) (level + 1)
    refine ⟨.array jsons, ?_, by simp [node?, hnodes]⟩
    simp only [hwrite, List.cons_append, List.append_assoc, List.nil_append] at hread ⊢
    rw [readValue?_list hclose hblank, hread]
    rfl

theorem isReadBack_map {fields : List (String × Node)} (h : ∀ field ∈ fields, IsReadBack field.2) :
    IsReadBack (.map (ofFields fields)) := by
  intro level fuel rest hends hfuel
  cases fields with
  | nil =>
    have hroom : 4 ≤ fuel := by simpa [write, ofFields] using hfuel
    obtain ⟨fuel, rfl⟩ := Nat.exists_eq_add_one.mpr (show 0 < fuel by omega)
    exact ⟨_, rfl, rfl⟩
  | cons field fields =>
    rw [ofFields_cons, write] at hfuel ⊢
    simp only [scalarText?, Option.getD_some, List.length_cons, List.length_append] at hfuel ⊢
    obtain ⟨fuel, rfl⟩ := Nat.exists_eq_add_one.mpr (show 0 < fuel by omega)
    have hroom : 2 * (stringText field.1 ++ write (level + 1) field.2
        ++ writeEntries level (ofFields fields)).length < fuel := by
      rw [List.length_append, List.length_append]
      omega
    obtain ⟨members, hentries, hread⟩ := readMembers?_write level rest h hroom
    refine ⟨.object members, ?_, by simp [node?, hentries, ofFields_cons]⟩
    rw [stringText] at hread ⊢
    simp only [List.cons_append, List.append_assoc, List.nil_append] at hread ⊢
    rw [readValue?_mapping (by decide) rfl, hread]
    rfl

theorem isReadBack_of_isPlain {depth : Nat} {node : Node} (h : node.IsPlain depth) : IsReadBack node := by
  induction h with
  | bool b => exact isReadBack_bool b
  | int fits => exact isReadBack_int fits
  | str s => exact isReadBack_str s
  | seq each ih => exact isReadBack_seq each ih
  | map _ _ ih => exact isReadBack_map ih

/-- A plain tree is found again in the text that is written for it. -/
theorem node?_read?_render {depth : Nat} {node : Node} (h : node.IsPlain depth) :
    (read? (render node)).bind node? = some node := by
  obtain ⟨json, hread, hnode⟩ := isReadBack_of_isPlain h 0 (2 * (write 0 node).length + 2) []
    (by simp [Ends]) (by omega)
  rw [List.append_nil] at hread
  simp [read?, render, hread, skipBlanks, hnode]

end ZoneScript.Json
