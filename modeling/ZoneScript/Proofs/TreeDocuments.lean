import ZoneScript.Proofs.KeptBreaks
import ZoneScript.Proofs.TreeEvents

/-!
# The document of a tree written as JSON

The events of a tree are put together as that tree, with each text as it is read between double quotes. So a
tree is read back from JSON as itself exactly if all of its strings are read, all of its names are short, and
its texts keep their line breaks.
-/

namespace ZoneScript.Yaml

open Text (head?_toDigits_ne isDigit_of_mem_toDigits not_mem_toDigits)
open Node (IsPlain boolText intText mapEntries mapItems mapTexts ofFields ofFields_cons)

/-! ## Scalars -/

theorem scalarMeaning_quoted (text : String) : scalarMeaning none text .doubleQuoted = .ok (.str text) := by
  simp [scalarMeaning]

theorem scalarMeaning_boolText (b : Bool) : scalarMeaning none (boolText b) .plain = .ok (.bool b) := by
  cases b <;> rfl

theorem isPaddedNumber_toDigits (n : Nat) : isPaddedNumber (Nat.toDigits 10 n) = false := by
  unfold isPaddedNumber
  split
  · rename_i heq
    exact absurd (heq ▸ List.mem_cons_self) (not_mem_toDigits (c := '-') rfl n)
  · rename_i heq
    exact absurd (heq ▸ List.mem_cons_self) (not_mem_toDigits (c := '+') rfl n)
  · by_cases h : n = 0
    · rw [h]
      rfl
    · simp [head?_toDigits_ne h]

theorem basedDigits?_toDigits (n : Nat) : basedDigits? (Nat.toDigits 10 n) = none := by
  have hsecond (c d : Char) (cs : List Char) (hd : d.isDigit = false) : Nat.toDigits 10 n ≠ c :: d :: cs :=
    fun heq => not_mem_toDigits hd n (heq ▸ List.mem_cons_of_mem _ List.mem_cons_self)
  unfold basedDigits?
  split
  · rename_i heq
    exact absurd heq (hsecond _ _ _ rfl)
  · rename_i heq
    exact absurd heq (hsecond _ _ _ rfl)
  · rename_i heq
    exact absurd heq (hsecond _ _ _ rfl)
  · rfl

theorem intOfText?_showInt (n : Int) : intOfText? (Text.showInt n) = some n := by
  have hread (n : Nat) := And.intro (basedDigits?_toDigits n)
    (And.intro (isPaddedNumber_toDigits n) (Text.readNat?_toDigits n))
  cases n with
  | ofNat n =>
    have hplus : withoutPlus (Nat.toDigits 10 n) = Nat.toDigits 10 n := by
      unfold withoutPlus
      split
      · rename_i heq
        exact absurd (heq ▸ List.mem_cons_self) (not_mem_toDigits (c := '+') rfl n)
      · rfl
    rw [Text.showInt]
    unfold intOfText?
    split
    rename_i negative body hsplit
    split at hsplit
    · rename_i heq
      exact absurd (heq ▸ List.mem_cons_self) (not_mem_toDigits (c := '-') rfl n)
    · rw [hplus] at hsplit
      cases hsplit
      simp [hread]
  | negSucc n =>
    simp [Text.showInt, intOfText?, hread, Int.negSucc_eq]

theorem scalarMeaning_intText {n : Int} (h : Text.fitsBits 64 n = true) :
    scalarMeaning none (intText n) .plain = .ok (.int n) := by
  have htext : (intText n).toList = Text.showInt n := String.toList_ofList
  have hhead : (Text.showInt n).head?.all (fun c => !(c.isDigit || c == '-')) = false := by
    cases n with
    | ofNat n =>
      obtain ⟨c, cs, heq⟩ := List.exists_cons_of_ne_nil (Nat.toDigits_ne_nil (n := n) (b := 10))
      simp [Text.showInt, heq, isDigit_of_mem_toDigits (heq ▸ List.mem_cons_self)]
    | negSucc n => rfl
  have hne (t : String) (ht : t.toList.head?.all (fun c => !(c.isDigit || c == '-')) = true) : intText n ≠ t := by
    rintro rfl
    rw [htext, hhead] at ht
    cases ht
  have hempty : (intText n).isEmpty = false := by
    rw [Bool.eq_false_iff, ne_eq, String.isEmpty_iff]
    exact hne "" rfl
  have hmeaning : plainMeaning (intText n) = .ok (.int n) := by
    simp [plainMeaning, hempty, isNullText, boolOfText?, hne, readInt?, htext, intOfText?_showInt, h]
  simpa [scalarMeaning] using hmeaning

/-! ## Parts -/

/-- The part of a document that an event without an anchor brings. -/
def Part.ofEvent? : EventKind → Option Part
  | .scalar ⟨none, tag⟩ text style => some (.scalar tag text style)
  | .sequenceStart ⟨none, tag⟩ => some (.sequenceStart tag)
  | .sequenceEnd => some .sequenceEnd
  | .mappingStart ⟨none, tag⟩ => some (.mappingStart tag)
  | .mappingEnd => some .mappingEnd
  | _ => none

namespace Draft

/-- The parts of a draft without their marks. -/
def kinds (d : Draft) : List Part :=
  d.parts.toList.map (·.1)

theorem exists_ofEvents_append (ahead : Option Problem) (d : Draft) {events : List Event}
    (h : ∀ event ∈ events, (Part.ofEvent? event.kind).isSome) (rest : List Event) :
    ∃ d' : Draft, ofEvents ahead d (events ++ rest) = ofEvents ahead d' rest ∧ d'.problem = d.problem ∧
      d'.kinds = d.kinds ++ (events.map (·.kind)).filterMap Part.ofEvent? := by
  induction events generalizing d with
  | nil => exact ⟨d, rfl, rfl, by simp⟩
  | cons event events ih =>
    obtain ⟨hevent, hevents⟩ := List.forall_mem_cons.mp h
    obtain ⟨part, hpart⟩ := Option.isSome_iff_exists.mp hevent
    obtain ⟨d', heq, hproblem, hkinds⟩ := ih (d.add part event.mark) hevents
    refine ⟨d', ?_, hproblem, ?_⟩
    · rw [← heq, List.cons_append, ofEvents]
      obtain ⟨kind, mark⟩ := event
      unfold Part.ofEvent? at hpart
      dsimp only at hpart ⊢
      split at hpart <;> cases hpart <;> rfl
    · rw [hkinds, List.map_cons, List.filterMap_cons_some hpart]
      simp [kinds, add]

end Draft

/-- The parts of a tree. -/
def nodeParts (node : Node) : List Part :=
  (nodeEvents node).filterMap Part.ofEvent?

/-- The parts of items, and the end of the list. -/
def itemParts (items : List Node) : List Part :=
  (itemEvents items).filterMap Part.ofEvent?

/-- The parts of entries, and the end of the mapping. -/
def entryParts (entries : Node.Entries) : List Part :=
  (entryEvents entries).filterMap Part.ofEvent?

theorem nodeParts_seq (items : List Node) : nodeParts (.seq items) = .sequenceStart none :: itemParts items :=
  rfl

theorem nodeParts_map (entries : Node.Entries) :
    nodeParts (.map entries) = .mappingStart none :: entryParts entries :=
  rfl

theorem itemParts_cons (item : Node) (items : List Node) :
    itemParts (item :: items) = nodeParts item ++ itemParts items := by
  simp [itemParts, nodeParts, itemEvents]

theorem length_itemParts_pos (items : List Node) : 0 < (itemParts items).length := by
  induction items with
  | nil => exact Nat.one_pos
  | cons item items ih =>
    rw [itemParts_cons, List.length_append]
    omega

theorem entryParts_cons (name : String) (value : Node) (entries : Node.Entries) :
    entryParts ((.str name, value) :: entries) =
      .scalar none (reread name) .doubleQuoted :: (nodeParts value ++ entryParts entries) := by
  simp [entryParts, nodeParts, entryEvents, stringEvent, Part.ofEvent?, Node.scalarText?]

theorem isSome_ofEvent? {depth : Nat} {node : Node} (h : node.IsPlain depth) :
    ∀ kind ∈ nodeEvents node, (Part.ofEvent? kind).isSome := by
  induction h with
  | bool | int | str => simp [nodeEvents, stringEvent, Part.ofEvent?]
  | @seq depth items each ih =>
    clear each
    refine List.forall_mem_cons.mpr ⟨rfl, ?_⟩
    induction items with
    | nil => simp [itemEvents, Part.ofEvent?]
    | cons item items tail_ih =>
      obtain ⟨hitem, hitems⟩ := List.forall_mem_cons.mp ih
      exact List.forall_mem_append.mpr ⟨hitem, tail_ih hitems⟩
  | @map depth fields distinct each ih =>
    clear each distinct
    refine List.forall_mem_cons.mpr ⟨rfl, ?_⟩
    induction fields with
    | nil => simp [ofFields, entryEvents, Part.ofEvent?]
    | cons field fields tail_ih =>
      obtain ⟨hfield, hfields⟩ := List.forall_mem_cons.mp ih
      exact List.forall_mem_cons.mpr ⟨rfl, List.forall_mem_append.mpr ⟨hfield, tail_ih hfields⟩⟩

/-! ## Nodes -/

namespace Draft

/-! ### Steps -/

theorem bind_apply {α β : Type} (x : Reading α) (f : α → Reading β) (p : Position) :
    (x >>= f) p = (x p).bind fun r => f r.1 r.2 :=
  rfl

theorem map_apply {α β : Type} (f : α → β) (x : Reading α) (p : Position) :
    (f <$> x) p = (x p).bind fun r => .ok (f r.1, r.2) :=
  rfl

theorem pure_apply {α : Type} (x : α) (p : Position) : (pure x : Reading α) p = .ok (x, p) :=
  rfl

theorem get_apply (p : Position) : (get : Reading Position) p = .ok (p, p) :=
  rfl

theorem advance_apply (p : Position) : advance p = .ok ((), ⟨p.index + 1, p.jumps⟩) :=
  rfl

variable {d : Draft} {index jumps : Nat} {part : Part} {rest : List Part}

theorem exists_peek (jumps : Nat) (h : d.kinds.drop index = part :: rest) :
    ∃ mark, d.peek ⟨index, jumps⟩ = .ok ((part, mark), ⟨index, jumps⟩) := by
  have hkind : d.kinds[index]? = some part := by
    rw [← List.head?_drop, h, List.head?_cons]
  simp only [kinds, List.getElem?_map, Array.getElem?_toList, Option.map_eq_some_iff] at hkind
  obtain ⟨⟨_, mark⟩, hpart, rfl⟩ := hkind
  refine ⟨mark, ?_⟩
  simp [peek, hpart, bind_apply, get_apply, pure_apply, Except.bind]

theorem drop_append (before : List Part) (h : d.kinds.drop index = before ++ rest) :
    d.kinds.drop (index + before.length) = rest := by
  rw [← List.drop_drop, h, List.drop_left]

theorem readNode_scalar {text : String} {style : ScalarStyle} {node : Node} (fuel depth : Nat) (path : Path)
    (h : d.kinds.drop index = .scalar none text style :: rest)
    (hmeaning : scalarMeaning none text style = .ok node) :
    d.readNode (fuel + 1) depth path false ⟨index, jumps⟩ = .ok (node, ⟨index + 1, jumps⟩) := by
  obtain ⟨mark, hpeek⟩ := exists_peek jumps h
  rw [readNode]
  simp [hpeek, hmeaning, Part.tag?, advance_apply, bind_apply, pure_apply, Except.bind]

theorem readNode_sequence {items : List Node} {p : Position} (fuel depth : Nat) (path : Path)
    (h : d.kinds.drop index = .sequenceStart none :: rest)
    (hitems : d.readItems fuel depth path 0 ⟨index + 1, jumps⟩ = .ok (items, p)) :
    d.readNode (fuel + 1) (depth + 1) path false ⟨index, jumps⟩ = .ok (.seq items, p) := by
  obtain ⟨mark, hpeek⟩ := exists_peek jumps h
  rw [readNode]
  simp [hpeek, hitems, Part.tag?, advance_apply, bind_apply, map_apply, Except.bind]

theorem readNode_mapping {entries : Node.Entries} {p : Position} (fuel depth : Nat) (path : Path)
    (h : d.kinds.drop index = .mappingStart none :: rest)
    (hentries : ∀ mark, d.readEntries fuel depth path mark [] ⟨index + 1, jumps⟩ = .ok (entries, p)) :
    d.readNode (fuel + 1) (depth + 1) path false ⟨index, jumps⟩ = .ok (.map entries, p) := by
  obtain ⟨mark, hpeek⟩ := exists_peek jumps h
  rw [readNode]
  simp [hpeek, hentries, Part.tag?, advance_apply, bind_apply, map_apply, Except.bind]

theorem readItems_end (fuel depth : Nat) (path : Path) (number : Nat)
    (h : d.kinds.drop index = .sequenceEnd :: rest) :
    d.readItems (fuel + 1) depth path number ⟨index, jumps⟩ = .ok ([], ⟨index + 1, jumps⟩) := by
  obtain ⟨mark, hpeek⟩ := exists_peek jumps h
  rw [readItems]
  simp [hpeek, advance_apply, bind_apply, map_apply, Except.bind]

theorem readItems_cons {item : Node} {items : List Node} {p p' : Position} (fuel depth : Nat) (path : Path)
    (number : Nat) (h : d.kinds.drop index = part :: rest) (hpart : part ≠ .sequenceEnd)
    (hitem : d.readNode fuel depth (.item path number) false ⟨index, jumps⟩ = .ok (item, p))
    (hitems : d.readItems fuel depth path (number + 1) p = .ok (items, p')) :
    d.readItems (fuel + 1) depth path number ⟨index, jumps⟩ = .ok (item :: items, p') := by
  obtain ⟨mark, hpeek⟩ := exists_peek jumps h
  rw [readItems]
  simp [hpeek, hpart, hitem, hitems, bind_apply, map_apply, Except.bind]

theorem readEntries_end (fuel depth : Nat) (path : Path) (start : Mark) (known : List Node)
    (h : d.kinds.drop index = .mappingEnd :: rest) :
    d.readEntries (fuel + 1) depth path start known ⟨index, jumps⟩ = .ok ([], ⟨index + 1, jumps⟩) := by
  obtain ⟨mark, hpeek⟩ := exists_peek jumps h
  rw [readEntries]
  simp [hpeek, advance_apply, bind_apply, map_apply, Except.bind]

theorem readEntries_cons {name : String} {value : Node} {entries : Node.Entries} {p p' : Position}
    (fuel depth : Nat) (path : Path) (start : Mark) {known : List Node}
    (h : d.kinds.drop index = .scalar none name .doubleQuoted :: rest)
    (hnew : known.find? (·.same (.str name)) = none)
    (hvalue : d.readNode (fuel + 1) depth (.entry path name) false ⟨index + 1, jumps⟩ = .ok (value, p))
    (hentries : d.readEntries (fuel + 1) depth path start (.str name :: known) p = .ok (entries, p')) :
    d.readEntries (fuel + 2) depth path start known ⟨index, jumps⟩ = .ok ((.str name, value) :: entries, p') := by
  obtain ⟨mark, hpeek⟩ := exists_peek jumps h
  have hkey : d.readNode (fuel + 1) depth path false ⟨index, jumps⟩ = .ok (.str name, ⟨index + 1, jumps⟩) :=
    readNode_scalar fuel depth path h (scalarMeaning_quoted name)
  rw [readEntries]
  simp [hpeek, hkey, hnew, hvalue, hentries, Part.text?, bind_apply, map_apply, Except.bind]

end Draft

/-! ## Trees -/

/-- The parts of a tree are put together as the tree, with its texts as they are read. -/
structure IsBuilt (depth : Nat) (node : Node) : Prop where
  starts : ∃ part parts, nodeParts node = part :: parts ∧ part ≠ .sequenceEnd
  builds : ∀ (d : Draft) (index jumps fuel : Nat) (path : Path) (rest : List Part),
    d.kinds.drop index = nodeParts node ++ rest → (nodeParts node).length ≤ fuel →
      d.readNode fuel depth path false ⟨index, jumps⟩ =
        .ok (node.mapTexts reread, ⟨index + (nodeParts node).length, jumps⟩)

namespace Draft

variable {d : Draft} {index jumps depth fuel : Nat} {rest : List Part}

theorem readItems_eq {items : List Node} (hitems : ∀ item ∈ items, IsBuilt depth item) (path : Path) (number : Nat)
    (h : d.kinds.drop index = itemParts items ++ rest) (hfuel : (itemParts items).length ≤ fuel) :
    d.readItems fuel depth path number ⟨index, jumps⟩ =
      .ok (mapItems reread items, ⟨index + (itemParts items).length, jumps⟩) := by
  induction items generalizing index number fuel with
  | nil =>
    obtain ⟨fuel, rfl⟩ := Nat.exists_eq_add_of_le' hfuel
    exact readItems_end fuel depth path number h
  | cons item items ih =>
    obtain ⟨hitem, hitems⟩ := List.forall_mem_cons.mp hitems
    obtain ⟨part, parts, hparts, hpart⟩ := hitem.starts
    rw [itemParts_cons, List.append_assoc] at h
    rw [itemParts_cons, List.length_append] at hfuel ⊢
    have hpos : 1 ≤ (nodeParts item).length := by simp [hparts]
    have hend := length_itemParts_pos items
    obtain ⟨fuel, rfl⟩ := Nat.exists_eq_add_of_le' (show 1 ≤ fuel by omega)
    rw [← Nat.add_assoc]
    refine readItems_cons fuel depth path number (by rw [h, hparts, List.cons_append]) hpart
      (hitem.builds d index jumps fuel _ _ h (by omega)) ?_
    exact ih hitems (number + 1) (drop_append _ h) (by omega)

theorem readEntries_eq {fields : List (String × Node)} (hfields : ∀ field ∈ fields, IsBuilt depth field.2)
    (hnames : ∀ name ∈ Ordered.names fields, reread name = name) (distinct : (Ordered.names fields).Nodup)
    {known : List String} (hnew : ∀ name ∈ Ordered.names fields, name ∉ known) (path : Path) (start : Mark)
    (h : d.kinds.drop index = entryParts (ofFields fields) ++ rest)
    (hfuel : (entryParts (ofFields fields)).length ≤ fuel) :
    d.readEntries fuel depth path start (known.map .str) ⟨index, jumps⟩ =
      .ok (mapEntries reread (ofFields fields), ⟨index + (entryParts (ofFields fields)).length, jumps⟩) := by
  induction fields generalizing index known fuel with
  | nil =>
    obtain ⟨fuel, rfl⟩ := Nat.exists_eq_add_of_le' hfuel
    exact readEntries_end fuel depth path start _ h
  | cons field fields ih =>
    obtain ⟨name, value⟩ := field
    obtain ⟨hvalue, hfields⟩ := List.forall_mem_cons.mp hfields
    obtain ⟨hname, hnames⟩ := List.forall_mem_cons.mp hnames
    obtain ⟨hfirst, hnew⟩ := List.forall_mem_cons.mp hnew
    obtain ⟨hnotin, distinct⟩ := List.nodup_cons.mp distinct
    obtain ⟨part, parts, hparts, -⟩ := hvalue.starts
    rw [ofFields_cons, entryParts_cons, List.cons_append, List.append_assoc, hname] at h
    rw [ofFields_cons, entryParts_cons, List.length_cons, List.length_append] at hfuel ⊢
    dsimp only at h hname hfirst hvalue hfuel ⊢
    have hpos : 1 ≤ (nodeParts value).length := by simp [hparts]
    obtain ⟨fuel, rfl⟩ := Nat.exists_eq_add_of_le' (show 2 ≤ fuel by omega)
    have hbehind := drop_append [_] h
    have hother : (known.map Node.str).find? (·.same (.str name)) = none := by
      rw [List.find?_eq_none]
      intro node hnode
      obtain ⟨other, hother, rfl⟩ := List.mem_map.mp hnode
      simp only [Node.same, beq_iff_eq]
      exact fun heq => hfirst (heq ▸ hother)
    have hlength : index + ((nodeParts value).length + (entryParts (ofFields fields)).length + 1) =
        index + 1 + (nodeParts value).length + (entryParts (ofFields fields)).length := by omega
    rw [hlength, mapEntries]
    refine readEntries_cons fuel depth path start h hother
      (hvalue.builds d (index + 1) jumps (fuel + 1) _ _ hbehind (by omega)) ?_
    rw [← List.map_cons]
    refine ih hfields hnames distinct (fun other hmem => ?_) (drop_append _ hbehind) (by omega)
    have hne : other ≠ name := by
      rintro rfl
      exact hnotin hmem
    simp [hne, hnew other hmem]

end Draft

theorem isBuilt_of_isPlain {depth : Nat} {node : Node} (h : node.IsPlain depth)
    (hnames : ∀ name ∈ node.names, reread name = name) : IsBuilt depth node := by
  induction h with
  | bool b =>
    refine ⟨⟨_, [], rfl, by simp⟩, fun d index jumps fuel path rest h hfuel => ?_⟩
    obtain ⟨fuel, rfl⟩ := Nat.exists_eq_add_of_le' hfuel
    exact Draft.readNode_scalar fuel _ path h (scalarMeaning_boolText b)
  | int fits =>
    refine ⟨⟨_, [], rfl, by simp⟩, fun d index jumps fuel path rest h hfuel => ?_⟩
    obtain ⟨fuel, rfl⟩ := Nat.exists_eq_add_of_le' hfuel
    exact Draft.readNode_scalar fuel _ path h (scalarMeaning_intText fits)
  | str s =>
    refine ⟨⟨_, [], rfl, by simp⟩, fun d index jumps fuel path rest h hfuel => ?_⟩
    obtain ⟨fuel, rfl⟩ := Nat.exists_eq_add_of_le' hfuel
    exact Draft.readNode_scalar fuel _ path h (scalarMeaning_quoted (reread s))
  | @seq depth items each ih =>
    refine ⟨⟨_, _, nodeParts_seq items, by simp⟩, fun d index jumps fuel path rest h hfuel => ?_⟩
    rw [Node.names, Node.itemNames_eq] at hnames
    have hitems (item : Node) (hitem : item ∈ items) : IsBuilt depth item :=
      ih item hitem fun name hname => hnames name (List.mem_flatMap_of_mem hitem hname)
    rw [nodeParts_seq, List.length_cons] at hfuel ⊢
    rw [nodeParts_seq, List.cons_append] at h
    obtain ⟨fuel, rfl⟩ := Nat.exists_eq_add_of_le' (show 1 ≤ fuel by omega)
    rw [← Nat.add_assoc, Nat.add_right_comm]
    exact Draft.readNode_sequence fuel depth path h
      (Draft.readItems_eq hitems path 0 (Draft.drop_append [_] h) (by omega))
  | @map depth fields distinct each ih =>
    refine ⟨⟨_, _, nodeParts_map _, by simp⟩, fun d index jumps fuel path rest h hfuel => ?_⟩
    rw [Node.names, Node.entryNames_ofFields] at hnames
    have hfields (field : String × Node) (hfield : field ∈ fields) : IsBuilt depth field.2 :=
      ih field hfield fun name hname =>
        hnames name (List.mem_flatMap_of_mem hfield (List.mem_cons_of_mem _ hname))
    have hkeys : ∀ name ∈ Ordered.names fields, reread name = name :=
      List.forall_mem_map.mpr fun field hfield =>
        hnames field.1 (List.mem_flatMap_of_mem hfield List.mem_cons_self)
    rw [nodeParts_map, List.length_cons] at hfuel ⊢
    rw [nodeParts_map, List.cons_append] at h
    obtain ⟨fuel, rfl⟩ := Nat.exists_eq_add_of_le' (show 1 ≤ fuel by omega)
    have hnew : ∀ name ∈ Ordered.names fields, name ∉ ([] : List String) := by simp
    rw [← Nat.add_assoc, Nat.add_right_comm]
    exact Draft.readNode_mapping fuel depth path h fun start =>
      Draft.readEntries_eq hfields hkeys distinct hnew path start (Draft.drop_append [_] h) (by omega)

/-! ## The whole text -/

/-- A tree whose strings are all read, and whose names are found to be keys. -/
structure IsLoadable (node : Node) : Prop where
  strings : ∀ s ∈ node.names ++ node.texts, IsReadable s
  names : ∀ name ∈ node.names, isShortKey name = true

theorem keepsBreaks_of_isShortKey {name : String} (h : isShortKey name = true) : KeepsBreaks name.toList := by
  simp only [isShortKey, Bool.and_eq_true, Bool.not_eq_true', List.any_eq_false, Bool.not_eq_true] at h
  refine ⟨fun c hc heq => ?_, List.Pairwise.isChain (List.pairwise_of_forall_mem_list fun c hc d hd => ?_)⟩
  · have hbreak := h.1 c hc
    simp [isBareBreak, heq] at hbreak
  · simp [areFolded, h.1 c hc, h.1 d hd]

theorem Draft.node_eq {d : Draft} {node : Node} (h : IsPlain maxDepth node)
    (hnames : ∀ name ∈ node.names, reread name = name) (hkinds : d.kinds = nodeParts node) :
    d.node = .ok (node.mapTexts reread) := by
  have hbuilt := isBuilt_of_isPlain h hnames
  obtain ⟨part, parts, hparts, -⟩ := hbuilt.starts
  have hsize : d.parts.size = (nodeParts node).length := by
    rw [← hkinds, kinds, List.length_map, Array.length_toList]
  have hpos : 0 < d.parts.size := by
    rw [hsize, hparts, List.length_cons]
    omega
  have hfuel : (nodeParts node).length ≤ 3 * (d.parts.size + 1) * (d.maxJumps + 2) := by
    rw [← hsize]
    calc d.parts.size ≤ 3 * (d.parts.size + 1) := by omega
      _ ≤ 3 * (d.parts.size + 1) * (d.maxJumps + 2) := Nat.le_mul_of_pos_right _ (by omega)
  have hread := hbuilt.builds d 0 0 _ .root [] (by rw [hkinds, List.drop_zero, List.append_nil]) hfuel
  have hempty : d.parts.isEmpty = false := by
    simpa [Array.isEmpty] using Nat.pos_iff_ne_zero.mp hpos
  rw [Draft.node, hempty]
  show Except.map (·.1) (d.readNode _ maxDepth .root false {}) = _
  rw [hread]
  rfl

variable {entries : Node.Entries}

theorem load_render (h : IsPlain Draft.maxDepth (.map entries)) (hloads : IsLoadable (.map entries)) :
    load (Json.render (.map entries)) = .ok ((Node.map entries).mapTexts reread) := by
  have hnames : ∀ name ∈ (Node.map entries).names, reread name = name :=
    fun name hname => (reread_eq_iff name).mpr (keepsBreaks_of_isShortKey (hloads.names name hname))
  have hgiven := events_write h hloads.strings hloads.names
  rw [load, Json.render, String.toList_ofList]
  generalize events (Json.write 0 (.map entries)) = found at hgiven ⊢
  obtain ⟨found, ahead⟩ := found
  obtain ⟨first, found, rfl, hfirst, hgiven⟩ := List.map_eq_cons_iff.mp hgiven
  obtain ⟨inside, found, rfl, hinside, hgiven⟩ := List.map_eq_append_iff.mp hgiven
  obtain ⟨last, found, rfl, hlast, hgiven⟩ := List.map_eq_cons_iff.mp hgiven
  obtain ⟨stop, found, rfl, hstop, hgiven⟩ := List.map_eq_cons_iff.mp hgiven
  obtain rfl := List.map_eq_nil_iff.mp hgiven
  have hparts : ∀ event ∈ inside, (Part.ofEvent? event.kind).isSome := by
    intro event hevent
    exact isSome_ofEvent? h _ (hinside ▸ List.mem_map_of_mem hevent)
  obtain ⟨draft, hdraft, hproblem, hkinds⟩ := Draft.exists_ofEvents_append ahead {} hparts [last, stop]
  have hofEvents : Draft.ofEvents ahead {} (first :: (inside ++ [last, stop])) = (draft, [stop]) := by
    rw [Draft.ofEvents]
    simp only [hfirst]
    rw [hdraft, Draft.ofEvents]
    simp only [hlast]
  have hnode := Draft.node_eq h hnames (d := draft) (by rw [hkinds, hinside]; rfl)
  have hnone : draft.problem = none := hproblem
  have hstop : stop = ⟨.streamEnd, stop.mark⟩ := by rw [← hstop]
  simp only [hofEvents, hnode, hnone, bind, Except.bind]
  rw [hstop]
  rfl

/-- **Written trees.** A tree that is written as JSON is loaded exactly if all of its strings are read and all
of its names are found to be keys, and then it has its texts as they are read. -/
theorem load_render_iff (h : IsPlain Draft.maxDepth (.map entries)) {node : Node} :
    load (Json.render (.map entries)) = .ok node ↔
      IsLoadable (.map entries) ∧ node = (Node.map entries).mapTexts reread := by
  constructor
  · intro hload
    have hloads : IsLoadable (.map entries) := by
      refine Classical.byContradiction fun hbad => ?_
      obtain ⟨event, hevent, hkind⟩ := exists_streamEnd_of_load hload
      rw [Json.render, String.toList_ofList] at hevent
      exact ne_streamEnd_of_mem_events h (fun hgood => hbad ⟨hgood.1, hgood.2⟩) event hevent hkind
    exact ⟨hloads, Except.ok.inj (hload.symm.trans (load_render h hloads))⟩
  · rintro ⟨hloads, rfl⟩
    exact load_render h hloads

end ZoneScript.Yaml
