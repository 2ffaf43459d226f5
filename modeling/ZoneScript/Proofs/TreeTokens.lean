import Mathlib.Tactic.Tauto
import ZoneScript.Proofs.FlowTokens

/-!
# The tokens of a tree written as JSON

Each part of a tree has its tokens, and a tree that is written as JSON is read as the tokens of its parts
unless a line of one of its strings looks like the start or the end of a document. Then nothing is read
behind it, not even the end of the text.
-/

namespace ZoneScript.Yaml

open Json (newLine stringText)
open Node (IsPlain boolText entryNames entryTexts itemNames itemTexts names ofFields ofFields_cons scalarText?
  texts)

/-! ## The tokens of the parts -/

mutual

/-- The tokens of a tree. -/
def nodeKinds : Node → List TokenKind
  | .str s => [.scalar (reread s) .doubleQuoted]
  | .seq [] => [.flowSequenceStart, .flowSequenceEnd]
  | .seq (item :: items) =>
    .flowSequenceStart :: (nodeKinds item ++ itemKinds items ++ [.flowSequenceEnd])
  | .map [] => [.flowMappingStart, .flowMappingEnd]
  | .map ((key, value) :: entries) =>
    .flowMappingStart :: (keyKinds (key.scalarText?.getD "") ++ nodeKinds value ++ entryKinds entries
      ++ [.flowMappingEnd])
  | .tagged _ value => nodeKinds value
  | node => [.scalar (node.scalarText?.getD "null") .plain]

/-- The tokens of the items after the first one. -/
def itemKinds : List Node → List TokenKind
  | [] => []
  | item :: items => .flowEntry :: (nodeKinds item ++ itemKinds items)

/-- The tokens of the entries after the first one. -/
def entryKinds : List (Node × Node) → List TokenKind
  | [] => []
  | (key, value) :: entries =>
    .flowEntry :: (keyKinds (key.scalarText?.getD "") ++ nodeKinds value ++ entryKinds entries)

end

/-! ## Words -/

theorem isWord_boolText (b : Bool) : IsWord (boolText b).toList := by
  cases b <;> exact .bare (List.all_eq_true.mp rfl)

theorem isWord_showInt (n : Int) : IsWord (Text.showInt n) := by
  have hdigits (n : Nat) : ∃ c cs, Nat.toDigits 10 n = c :: cs ∧ ∀ d ∈ c :: cs, d.isAlphanum = true := by
    obtain ⟨c, cs, h⟩ := List.exists_cons_of_ne_nil (Nat.toDigits_ne_nil (n := n) (b := 10))
    refine ⟨c, cs, h, fun d hd => ?_⟩
    have hdigit := Text.isDigit_of_mem_toDigits (h ▸ hd)
    simp [Char.isAlphanum, hdigit]
  cases n with
  | ofNat n =>
    obtain ⟨c, cs, h, hall⟩ := hdigits n
    rw [Text.showInt, h]
    exact .bare hall
  | negSucc n =>
    obtain ⟨c, cs, h, hall⟩ := hdigits (n + 1)
    rw [Text.showInt, h]
    exact .signed hall

/-! ## What reading comes to -/

/-- No line of a string looks like the start or the end of a document. -/
def IsUnmarked (s : String) : Prop :=
  hasMarker false s.toList = false

/-- A text in which a mark of the collection around it comes next. -/
def Follows (text : List Char) : Prop :=
  ∃ gap c rest, (∀ d ∈ gap, isWhite d = true) ∧ (c = ',' ∨ c = ']' ∨ c = '\x7d') ∧ text = gap ++ c :: rest

theorem isWhite_of_mem_blank : ∀ c ∈ [' '], isWhite c = true :=
  List.forall_mem_singleton.mpr rfl

theorem isWhite_of_mem_newLine {depth : Nat} : ∀ c ∈ newLine depth, isWhite c = true := by
  intro c hc
  rcases Json.mem_newLine hc with rfl | rfl <;> rfl

theorem follows_newLine (depth : Nat) {c : Char} (hc : c = ']' ∨ c = '\x7d') (rest : List Char) :
    Follows (newLine depth ++ c :: rest) :=
  ⟨newLine depth, c, rest, isWhite_of_mem_newLine, .inr hc, rfl⟩

theorem follows_comma (rest : List Char) : Follows (',' :: rest) :=
  ⟨[], ',', rest, List.forall_mem_nil _, .inl rfl, rfl⟩

namespace Reader

/-- Reading comes to such a state if `good`, and fails if not. -/
structure Comes (r : Reader) (good : Prop) (level : Nat) (kinds : List TokenKind) (text : List Char) : Prop where
  reaches : good → ∃ r', r.Passes r' ∧ r'.Stands level kinds text
  fails : ¬ good → r.Fails

variable {r r' : Reader} {good : Prop} {level : Nat} {kinds : List TokenKind} {text rest : List Char}

theorem Comes.of_passes (hpasses : r.Passes r') (h : r'.Comes good level kinds text) :
    r.Comes good level kinds text where
  reaches hgood := by
    obtain ⟨r'', hrest, hstands⟩ := h.reaches hgood
    exact ⟨r'', hpasses.trans hrest, hstands⟩
  fails hbad := .of_passes hpasses (h.fails hbad)

theorem Stands.comes (h : r.Stands level kinds text) : r.Comes True level kinds text :=
  ⟨fun _ => ⟨r, .refl, h⟩, fun hbad => absurd trivial hbad⟩

theorem Comes.andThen {more : Prop} {level' : Nat} {kinds' : List TokenKind} {text' : List Char}
    (h : r.Comes good level kinds text)
    (hnext : ∀ r' : Reader, r'.Stands level kinds text → r'.Comes more level' kinds' text') :
    r.Comes (good ∧ more) level' kinds' text' where
  reaches hgood := by
    obtain ⟨r', hpasses, hstands⟩ := h.reaches hgood.1
    exact ((hnext r' hstands).of_passes hpasses).reaches hgood.2
  fails hbad := by
    by_cases hgood : good
    · obtain ⟨r', hpasses, hstands⟩ := h.reaches hgood
      exact ((hnext r' hstands).of_passes hpasses).fails fun hmore => hbad ⟨hgood, hmore⟩
    · exact h.fails hgood

theorem Comes.congr {other : Prop} (h : r.Comes good level kinds text) (hiff : other ↔ good) :
    r.Comes other level kinds text :=
  ⟨fun hother => h.reaches (hiff.mp hother), fun hbad => h.fails fun hgood => hbad (hiff.mpr hgood)⟩

theorem Stands.comes_string {s : String} (h : r.Stands level kinds (stringText s ++ text)) :
    r.Comes (IsUnmarked s) level (kinds ++ [.scalar (reread s) .doubleQuoted]) text where
  reaches hgood := by
    obtain ⟨r', htakes, hstands⟩ := h.takes_string hgood
    exact ⟨r', .single htakes, hstands⟩
  fails hbad := h.fails_string (by simpa [IsUnmarked] using hbad)

theorem Stands.comes_key {name : String} (h : r.Stands (level + 1) kinds (stringText name ++ ':' :: text))
    (hallowed : r.keyAllowed = true) : r.Comes (IsUnmarked name) (level + 1) (kinds ++ keyKinds name) text where
  reaches hgood := h.passes_key hgood hallowed
  fails hbad := h.fails_string (by simpa [IsUnmarked] using hbad)

theorem Stands.comes_word {word : List Char} (hword : IsWord word) (hfollows : Follows text)
    (h : r.Stands (level + 1) kinds (word ++ text)) :
    r.Comes True (level + 1) (kinds ++ [.scalar (.ofList word) .plain]) text := by
  obtain ⟨gap, c, rest, hgap, hc, rfl⟩ := hfollows
  obtain ⟨r', htakes, hstands⟩ := h.takes_word hword hgap hc
  exact hstands.comes.of_passes (.single htakes)

end Reader

/-! ## Trees -/

/-- Inside of a flow collection, a tree is read as its tokens. -/
def IsRead (node : Node) : Prop :=
  ∀ (r : Reader) (level depth : Nat) (kinds : List TokenKind) (text : List Char), Follows text →
    r.Stands (level + 1) kinds (Json.write depth node ++ text) →
      r.Comes (∀ s ∈ node.names ++ node.texts, IsUnmarked s) (level + 1) (kinds ++ nodeKinds node) text

namespace Reader

variable {r : Reader} {level depth : Nat} {kinds : List TokenKind} {text : List Char}

theorem follows_items (items : List Node) (depth : Nat) (text : List Char) :
    Follows (Json.writeItems depth items ++ (newLine depth ++ ']' :: text)) := by
  cases items with
  | nil => exact follows_newLine depth (.inl rfl) text
  | cons item items => exact follows_comma _

theorem follows_entries (entries : Node.Entries) (depth : Nat) (text : List Char) :
    Follows (Json.writeEntries depth entries ++ (newLine depth ++ '\x7d' :: text)) := by
  cases entries with
  | nil => exact follows_newLine depth (.inr rfl) text
  | cons e entries => exact follows_comma _

theorem Stands.comes_items {items : List Node} (hitems : ∀ item ∈ items, IsRead item)
    (h : r.Stands (level + 1) kinds (Json.writeItems depth items ++ (newLine depth ++ ']' :: text))) :
    r.Comes (∀ s ∈ itemNames items ++ itemTexts items, IsUnmarked s) level
      (kinds ++ (itemKinds items ++ [.flowSequenceEnd])) text := by
  induction items generalizing r kinds with
  | nil =>
    obtain ⟨r', htakes, hstands⟩ := (h.of_gap isWhite_of_mem_newLine).takes_close (.inl ⟨rfl, rfl⟩)
    exact (hstands.comes.of_passes (.single htakes)).congr (by simp [itemNames, itemTexts])
  | cons item items ih =>
    obtain ⟨hitem, hitems⟩ := List.forall_mem_cons.mp hitems
    rw [Json.writeItems, List.cons_append, List.append_assoc, List.append_assoc] at h
    obtain ⟨r', htakes, hstands, -⟩ := h.takes_comma
    have hhead := hitem r' level (depth + 1) _ _ (follows_items items depth text)
      (hstands.of_gap isWhite_of_mem_newLine)
    have hall := (hhead.andThen fun r'' h'' => ih hitems h'').of_passes (.single htakes)
    rw [itemKinds, itemNames, itemTexts]
    simp only [List.append_assoc, List.cons_append, List.nil_append] at hall ⊢
    refine hall.congr ?_
    simp only [List.forall_mem_append]
    tauto

theorem Stands.comes_entries {fields : List (String × Node)} (hfields : ∀ field ∈ fields, IsRead field.2)
    (h : r.Stands (level + 1) kinds
      (Json.writeEntries depth (ofFields fields) ++ (newLine depth ++ '\x7d' :: text))) :
    r.Comes (∀ s ∈ entryNames (ofFields fields) ++ entryTexts (ofFields fields), IsUnmarked s) level
      (kinds ++ (entryKinds (ofFields fields) ++ [.flowMappingEnd])) text := by
  induction fields generalizing r kinds with
  | nil =>
    obtain ⟨r', htakes, hstands⟩ := (h.of_gap isWhite_of_mem_newLine).takes_close (.inr ⟨rfl, rfl⟩)
    exact (hstands.comes.of_passes (.single htakes)).congr (by simp [ofFields, entryNames, entryTexts])
  | cons field fields ih =>
    obtain ⟨hfield, hfields⟩ := List.forall_mem_cons.mp hfields
    rw [ofFields_cons, Json.writeEntries, List.cons_append] at h
    simp only [List.append_assoc, List.cons_append, List.nil_append, scalarText?, Option.getD_some] at h
    obtain ⟨r', htakes, hstands, hallowed⟩ := h.takes_comma
    have hkey := (hstands.of_gap isWhite_of_mem_newLine).comes_key hallowed
    have hhead := hkey.andThen fun r'' h'' => hfield r'' level (depth + 1) _ _
      (follows_entries (ofFields fields) depth text) (h''.of_gap isWhite_of_mem_blank)
    have hall := (hhead.andThen fun r'' h'' => ih hfields h'').of_passes (.single htakes)
    rw [ofFields_cons, entryKinds, entryNames, entryTexts]
    simp only [List.append_assoc, List.cons_append, List.nil_append, scalarText?, Option.getD_some,
      Option.toList_some] at hall ⊢
    refine hall.congr ?_
    simp only [List.forall_mem_append, List.forall_mem_cons]
    tauto

theorem Stands.comes_seq {items : List Node} (hitems : ∀ item ∈ items, IsRead item)
    (h : r.Stands level kinds (Json.write depth (.seq items) ++ text)) :
    r.Comes (∀ s ∈ (Node.seq items).names ++ (Node.seq items).texts, IsUnmarked s) level
      (kinds ++ nodeKinds (.seq items)) text := by
  cases items with
  | nil =>
    obtain ⟨r', hopen, hstands, -⟩ := h.takes_open (.inl ⟨rfl, rfl⟩)
    obtain ⟨r'', hclose, hstands⟩ := hstands.takes_close (.inl ⟨rfl, rfl⟩)
    rw [List.append_assoc] at hstands
    exact (hstands.comes.of_passes (.head hopen (.single hclose))).congr
      (by simp [names, texts, itemNames, itemTexts])
  | cons item items =>
    obtain ⟨hitem, hitems⟩ := List.forall_mem_cons.mp hitems
    rw [Json.write, List.cons_append] at h
    simp only [List.append_assoc, List.cons_append, List.nil_append] at h
    obtain ⟨r', hopen, hstands, -⟩ := h.takes_open (.inl ⟨rfl, rfl⟩)
    have hhead := hitem r' level (depth + 1) _ _ (follows_items items depth text)
      (hstands.of_gap isWhite_of_mem_newLine)
    have hall := (hhead.andThen fun r'' h'' => h''.comes_items hitems).of_passes (.single hopen)
    rw [nodeKinds, names, texts, itemNames, itemTexts]
    simp only [List.append_assoc, List.cons_append, List.nil_append] at hall ⊢
    refine hall.congr ?_
    simp only [List.forall_mem_append]
    tauto

theorem Stands.comes_map {fields : List (String × Node)} (hfields : ∀ field ∈ fields, IsRead field.2)
    (h : r.Stands level kinds (Json.write depth (.map (ofFields fields)) ++ text)) :
    r.Comes (∀ s ∈ (Node.map (ofFields fields)).names ++ (Node.map (ofFields fields)).texts, IsUnmarked s)
      level (kinds ++ nodeKinds (.map (ofFields fields))) text := by
  cases fields with
  | nil =>
    obtain ⟨r', hopen, hstands, -⟩ := h.takes_open (.inr ⟨rfl, rfl⟩)
    obtain ⟨r'', hclose, hstands⟩ := hstands.takes_close (.inr ⟨rfl, rfl⟩)
    rw [List.append_assoc] at hstands
    exact (hstands.comes.of_passes (.head hopen (.single hclose))).congr
      (by simp [ofFields, names, texts, entryNames, entryTexts])
  | cons field fields =>
    obtain ⟨hfield, hfields⟩ := List.forall_mem_cons.mp hfields
    rw [ofFields_cons, Json.write, List.cons_append] at h
    simp only [List.append_assoc, List.cons_append, List.nil_append, scalarText?, Option.getD_some] at h
    obtain ⟨r', hopen, hstands, hallowed⟩ := h.takes_open (.inr ⟨rfl, rfl⟩)
    have hkey := (hstands.of_gap isWhite_of_mem_newLine).comes_key hallowed
    have hhead := hkey.andThen fun r'' h'' => hfield r'' level (depth + 1) _ _
      (follows_entries (ofFields fields) depth text) (h''.of_gap isWhite_of_mem_blank)
    have hall := (hhead.andThen fun r'' h'' => h''.comes_entries hfields).of_passes (.single hopen)
    rw [ofFields_cons, nodeKinds, names, texts, entryNames, entryTexts]
    simp only [List.append_assoc, List.cons_append, List.nil_append, scalarText?, Option.getD_some,
      Option.toList_some] at hall ⊢
    refine hall.congr ?_
    simp only [List.forall_mem_append, List.forall_mem_cons]
    tauto

end Reader

theorem isRead_of_isPlain {depth : Nat} {node : Node} (h : node.IsPlain depth) : IsRead node := by
  induction h with
  | bool b =>
    intro r level depth kinds text hfollows h
    have hword := h.comes_word (isWord_boolText b) hfollows
    rw [String.ofList_toList] at hword
    exact hword.congr (by simp [names, texts])
  | int =>
    intro r level depth kinds text hfollows h
    exact (h.comes_word (isWord_showInt _) hfollows).congr (by simp [names, texts])
  | str s =>
    intro r level depth kinds text hfollows h
    exact h.comes_string.congr (by simp [names, texts])
  | seq _ ih => exact fun r level depth kinds text _ h => h.comes_seq ih
  | map _ _ ih => exact fun r level depth kinds text _ h => h.comes_map ih

/-! ## The whole text -/

/-- A string that is read between double quotes: its characters may stand in a text, and none of its lines
looks like the start or the end of a document. -/
structure IsReadable (s : String) : Prop where
  writable : s.toList.all Json.isWritable = true
  unmarked : IsUnmarked s

theorem forbidden?_eq_none_iff (bytes : Nat) (cs : List Char) :
    forbidden? bytes cs = none ↔ cs.all isAllowed = true := by
  induction cs generalizing bytes with
  | nil => simp [forbidden?]
  | cons c cs ih =>
    rw [forbidden?, List.all_cons]
    cases hc : isAllowed c with
    | true => simpa using ih _
    | false => simp

variable {depth : Nat} {entries : Node.Entries}

theorem comes_write (h : IsPlain depth (.map entries)) :
    Reader.Comes { cursor := { rest := Json.write 0 (.map entries) } }
      (∀ s ∈ (Node.map entries).names ++ (Node.map entries).texts, IsUnmarked s) 0
      (nodeKinds (.map entries)) [] := by
  have hstart : Reader.Stands { cursor := { rest := Json.write 0 (.map entries) } } 0 []
      (Json.write 0 (.map entries) ++ []) :=
    { rest := by rw [List.append_nil]
      tokens := rfl
      ongoing := List.not_mem_nil
      level := rfl
      optional := by simp
      indent := rfl
      outer := rfl
      unfinished := rfl }
  cases h with
  | map _ each => simpa using hstart.comes_map fun field hfield => isRead_of_isPlain (each field hfield)

theorem tokens_write (h : IsPlain depth (.map entries))
    (hread : ∀ s ∈ (Node.map entries).names ++ (Node.map entries).texts, IsReadable s) :
    (tokens (Json.write 0 (.map entries))).1.map (·.kind) = nodeKinds (.map entries) ++ [.streamEnd] ∧
      (tokens (Json.write 0 (.map entries))).2 = none := by
  have hallowed : forbidden? 0 (Json.write 0 (.map entries)) = none := by
    rw [forbidden?_eq_none_iff, Json.all_write h, List.all_eq_true]
    exact fun s hs => (hread s hs).writable
  obtain ⟨r, hpasses, hstands⟩ := (comes_write h).reaches fun s hs => (hread s hs).unmarked
  obtain ⟨r', hstep, hfinished, htokens⟩ := hstands.exists_end
  obtain ⟨fuel, hfuel, hrun⟩ := hpasses.run_eq (show _ + 2 ≤ _ from Nat.le_refl _)
  obtain ⟨fuel, rfl⟩ := Nat.exists_eq_add_of_le' (show 2 ≤ fuel by omega)
  have hend : Reader.run (fuel + 2) r = (r'.tokens.toList, none) := by
    rw [Reader.run, hstands.unfinished, hstep]
    show Reader.run (fuel + 1) r' = _
    rw [Reader.run, hfinished]
    rfl
  rw [tokens, hallowed]
  simp only [hrun, hend, htokens, and_self]

theorem ne_streamEnd_of_mem_tokens (h : IsPlain depth (.map entries))
    (hread : ¬ ∀ s ∈ (Node.map entries).names ++ (Node.map entries).texts, IsReadable s) :
    ∀ token ∈ (tokens (Json.write 0 (.map entries))).1, token.kind ≠ .streamEnd := by
  rw [tokens]
  split
  · simp
  · rename_i hallowed
    rw [forbidden?_eq_none_iff, Json.all_write h, List.all_eq_true] at hallowed
    have hmarked : ¬ ∀ s ∈ (Node.map entries).names ++ (Node.map entries).texts, IsUnmarked s :=
      fun hunmarked => hread fun s hs => ⟨hallowed s hs, hunmarked s hs⟩
    exact ((comes_write h).fails hmarked).run (Nat.le_succ _)

end ZoneScript.Yaml
