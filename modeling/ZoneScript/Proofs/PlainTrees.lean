import ZoneScript.Json.Write
import ZoneScript.Proofs.JsonTree
import ZoneScript.Proofs.QuotedTexts

/-!
# Trees of texts

The trees that configurations are written as: texts, booleans and integers in lists and in mappings with
text keys. What such a tree says apart from its shape are the texts in it and the names of its fields.
-/

namespace ZoneScript

namespace Node

/-- A tree without null, fractions and tags, with text keys, none of them twice, that nests at most `depth`
collections. Its integers have 64 bits. -/
inductive IsPlain : Nat → Node → Prop
  | bool {depth : Nat} (b : Bool) : IsPlain depth (.bool b)
  | int {depth : Nat} {n : Int} (fits : Text.fitsBits 64 n = true) : IsPlain depth (.int n)
  | str {depth : Nat} (s : String) : IsPlain depth (.str s)
  | seq {depth : Nat} {items : List Node} (each : ∀ item ∈ items, IsPlain depth item) :
    IsPlain (depth + 1) (.seq items)
  | map {depth : Nat} {fields : List (String × Node)} (distinct : (Ordered.names fields).Nodup)
      (each : ∀ field ∈ fields, IsPlain depth field.2) : IsPlain (depth + 1) (.map (ofFields fields))

/-! ## Texts and names -/

mutual

/-- The texts in a tree. -/
def texts : Node → List String
  | .str s => [s]
  | .seq items => itemTexts items
  | .map entries => entryTexts entries
  | .tagged _ value => texts value
  | _ => []

def itemTexts : List Node → List String
  | [] => []
  | item :: items => texts item ++ itemTexts items

def entryTexts : List (Node × Node) → List String
  | [] => []
  | (_, value) :: entries => texts value ++ entryTexts entries

end

mutual

/-- The names of the fields in a tree. -/
def names : Node → List String
  | .seq items => itemNames items
  | .map entries => entryNames entries
  | .tagged _ value => names value
  | _ => []

def itemNames : List Node → List String
  | [] => []
  | item :: items => names item ++ itemNames items

def entryNames : List (Node × Node) → List String
  | [] => []
  | (key, value) :: entries => key.scalarText?.toList ++ names value ++ entryNames entries

end

mutual

/-- The tree with other texts; the names of its fields stay. -/
def mapTexts (f : String → String) : Node → Node
  | .str s => .str (f s)
  | .seq items => .seq (mapItems f items)
  | .map entries => .map (mapEntries f entries)
  | .tagged tag value => .tagged tag (mapTexts f value)
  | node => node

def mapItems (f : String → String) : List Node → List Node
  | [] => []
  | item :: items => mapTexts f item :: mapItems f items

def mapEntries (f : String → String) : List (Node × Node) → List (Node × Node)
  | [] => []
  | (key, value) :: entries => (key, mapTexts f value) :: mapEntries f entries

end

theorem ofFields_cons (field : String × Node) (fields : List (String × Node)) :
    ofFields (field :: fields) = (.str field.1, field.2) :: ofFields fields :=
  rfl

theorem itemNames_eq (items : List Node) : itemNames items = items.flatMap names := by
  induction items with
  | nil => rfl
  | cons item items ih => rw [itemNames, ih, List.flatMap_cons]

theorem entryNames_ofFields (fields : List (String × Node)) :
    entryNames (ofFields fields) = fields.flatMap fun field => field.1 :: field.2.names := by
  induction fields with
  | nil => rfl
  | cons field fields ih =>
    rw [ofFields_cons, entryNames, ih, List.flatMap_cons]
    rfl

theorem IsPlain.mapTexts_eq_iff {f : String → String} {depth : Nat} {node : Node} (h : node.IsPlain depth) :
    node.mapTexts f = node ↔ ∀ text ∈ node.texts, f text = text := by
  induction h with
  | bool | int => simp [mapTexts, texts]
  | str => simp [mapTexts, texts]
  | @seq depth items each ih =>
    rw [mapTexts, texts, Node.seq.injEq]
    clear each
    induction items with
    | nil => simp [mapItems, itemTexts]
    | cons item items tail_ih =>
      obtain ⟨hitem, hitems⟩ := List.forall_mem_cons.mp ih
      rw [mapItems, itemTexts, List.cons.injEq, hitem, tail_ih hitems, List.forall_mem_append]
  | @map depth fields distinct each ih =>
    rw [mapTexts, texts, Node.map.injEq]
    clear each distinct
    induction fields with
    | nil => simp [ofFields, mapEntries, entryTexts]
    | cons field fields tail_ih =>
      obtain ⟨hfield, hfields⟩ := List.forall_mem_cons.mp ih
      rw [ofFields, List.map_cons, mapEntries, entryTexts, List.cons.injEq, Prod.mk.injEq, hfield,
        List.forall_mem_append]
      simp only [true_and]
      exact and_congr_right fun _ => tail_ih hfields

end Node

namespace Json

open Node

/-! ## Characters of the text -/

/-- A character that may stand in a string: one that is escaped, or one that may stand in a text. -/
def isWritable (c : Char) : Bool :=
  c.toNat < 0x20 || Yaml.isAllowed c

theorem all_escapedChar (c : Char) : (escapedChar c).all Yaml.isAllowed = isWritable c := by
  have hshorts : ∀ p ∈ Yaml.shortEscapes, ['\\', p.1].all Yaml.isAllowed = isWritable p.2 := by decide
  have hdigit : ∀ n : Fin 32, Yaml.isAllowed (hexDigit (n / 16)) = true ∧ Yaml.isAllowed (hexDigit n) = true := by
    decide
  have hwritten := Yaml.isWritten_escapedChar c
  generalize escapedChar c = cs at hwritten ⊢
  cases hwritten with
  | bare hbare =>
    have hcontrol : ¬ c.toNat < 0x20 := fun h => by simp [Yaml.isBare_of_control h] at hbare
    simp [isWritable, hcontrol]
  | @short e hshort => exact hshorts (e, c) hshort
  | long hcontrol =>
    obtain ⟨ha, hb⟩ := hdigit ⟨c.toNat, hcontrol⟩
    simp only [List.all_cons, ha, hb, isWritable, hcontrol]
    rfl

theorem all_stringText (text : String) :
    (stringText text).all Yaml.isAllowed = text.toList.all isWritable := by
  have hquote : Yaml.isAllowed '"' = true := rfl
  simp [stringText, hquote, List.all_flatMap, all_escapedChar]

theorem mem_newLine {c : Char} {depth : Nat} (h : c ∈ newLine depth) : c = '\n' ∨ c = ' ' :=
  (List.mem_cons.mp h).imp_right List.eq_of_mem_replicate

theorem all_newLine (depth : Nat) : (newLine depth).all Yaml.isAllowed = true := by
  refine List.all_eq_true.mpr fun c hc => ?_
  rcases mem_newLine hc with rfl | rfl <;> rfl

theorem all_showInt (n : Int) : (Text.showInt n).all Yaml.isAllowed = true := by
  have hdigits (n : Nat) : (Nat.toDigits 10 n).all Yaml.isAllowed = true := by
    refine List.all_eq_true.mpr fun c hc => ?_
    have hrange := Char.isDigit_iff_toNat.mp (Text.isDigit_of_mem_toDigits hc)
    simp only [Yaml.isAllowed, Bool.or_eq_true, Bool.and_eq_true, decide_eq_true_eq]
    simp only [Char.reduceToNat] at hrange
    omega
  cases n with
  | ofNat n => exact hdigits n
  | negSucc n => simpa [Text.showInt] using ⟨rfl, List.all_eq_true.mp (hdigits (n + 1))⟩

theorem isAllowed_mark : Yaml.isAllowed '[' = true ∧ Yaml.isAllowed ']' = true ∧
    Yaml.isAllowed '\x7b' = true ∧ Yaml.isAllowed '\x7d' = true ∧ Yaml.isAllowed ',' = true ∧
    Yaml.isAllowed ':' = true ∧ Yaml.isAllowed ' ' = true :=
  ⟨rfl, rfl, rfl, rfl, rfl, rfl, rfl⟩

theorem all_write {depth : Nat} {node : Node} (h : node.IsPlain depth) (level : Nat) :
    (write level node).all Yaml.isAllowed = (node.names ++ node.texts).all fun s => s.toList.all isWritable := by
  induction h generalizing level with
  | bool b => cases b <;> rfl
  | int => simp [write, texts, names, all_showInt]
  | str s => simp [write, texts, names, all_stringText]
  | @seq depth items each ih =>
    have htail (tail : List Node) (htail : ∀ item ∈ tail, item ∈ items) :
        (writeItems level tail).all Yaml.isAllowed =
          (itemNames tail ++ itemTexts tail).all fun s => s.toList.all isWritable := by
      induction tail with
      | nil => rfl
      | cons item tail tail_ih =>
        obtain ⟨hitem, htail⟩ := List.forall_mem_cons.mp htail
        simp only [writeItems, List.all_cons, List.all_append, all_newLine, isAllowed_mark, Bool.true_and,
          ih item hitem, tail_ih htail, itemNames, itemTexts]
        ac_rfl
    cases items with
    | nil => rfl
    | cons item items =>
      have hitems := htail items fun _ => List.mem_cons_of_mem item
      have hhead := ih item List.mem_cons_self (level + 1)
      simp only [write, List.all_cons, List.all_append, List.all_nil, all_newLine, isAllowed_mark,
        Bool.true_and, Bool.and_true, hhead, hitems, names, texts, itemNames, itemTexts]
      ac_rfl
  | @map depth fields distinct each ih =>
    have htail (tail : List (String × Node)) (htail : ∀ field ∈ tail, field ∈ fields) :
        (writeEntries level (ofFields tail)).all Yaml.isAllowed =
          (entryNames (ofFields tail) ++ entryTexts (ofFields tail)).all fun s => s.toList.all isWritable := by
      induction tail with
      | nil => rfl
      | cons field tail tail_ih =>
        obtain ⟨hfield, htail⟩ := List.forall_mem_cons.mp htail
        rw [ofFields_cons]
        simp only [writeEntries, List.all_cons, List.all_append, List.all_nil, all_newLine, isAllowed_mark,
          Bool.true_and, all_stringText, ih field hfield, tail_ih htail, entryNames, entryTexts, scalarText?,
          Option.getD_some, Option.toList_some]
        ac_rfl
    cases fields with
    | nil => rfl
    | cons field fields =>
      have hentries := htail fields fun _ => List.mem_cons_of_mem field
      have hhead := ih field List.mem_cons_self (level + 1)
      rw [ofFields_cons]
      simp only [write, List.all_cons, List.all_append, List.all_nil, all_newLine, isAllowed_mark,
        Bool.true_and, Bool.and_true, all_stringText, hhead, hentries, names, texts, entryNames, entryTexts,
        scalarText?, Option.getD_some, Option.toList_some]
      ac_rfl

end Json

end ZoneScript
