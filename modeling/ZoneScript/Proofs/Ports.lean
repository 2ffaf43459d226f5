import Mathlib.Data.List.Infix
import Mathlib.Tactic.MkIffOfInductiveProp
import ZoneScript.Config.PortSpec
import ZoneScript.Proofs.Lines

/-!
# Ports that are read back

A port is read back from its text if the text is cut at the right slash, and a forward port if no value
looks like the start of another field. Whatever was read from some text is of this kind: a port is cut at
the first slash and trimmed, and a piece that starts no field goes to the value in front of it.
-/

namespace ZoneScript

namespace Text

/-! ## Trimmed texts -/

theorem trimEnd_sublist (cs : List Char) : (trimEnd cs).Sublist cs := by
  induction cs with
  | nil => exact List.Sublist.refl []
  | cons c cs ih =>
    rw [trimEnd]
    split
    · split
      · exact List.nil_sublist _
      · exact List.singleton_sublist.mpr List.mem_cons_self
    · rename_i hcs
      rw [← hcs]
      exact ih.cons_cons c

theorem mem_of_mem_trim {c : Char} {cs : List Char} (h : c ∈ trim cs) : c ∈ cs :=
  List.dropWhile_sublist _ |>.subset ((trimEnd_sublist _).subset h)

theorem trimEnd_trimEnd (cs : List Char) : trimEnd (trimEnd cs) = trimEnd cs := by
  induction cs with
  | nil => rfl
  | cons c cs ih =>
    cases hcs : trimEnd cs with
    | nil =>
      by_cases hspace : isSpace c = true <;> simp [trimEnd, hcs, hspace]
    | cons d ds =>
      have hcons : trimEnd (c :: cs) = c :: d :: ds := by rw [trimEnd, hcs]
      rw [hcs] at ih
      rw [hcons, trimEnd, ih]

theorem trim_trim (cs : List Char) : trim (trim cs) = trim cs := by
  have hstart : trimStart (trim cs) = trim cs := by
    cases hcs : trimStart cs with
    | nil => rw [trim, hcs]; rfl
    | cons c rest =>
      have hspace : isSpace c = false := by
        have := List.head?_dropWhile_not isSpace cs
        rw [← trimStart, hcs] at this
        simpa using this
      have htrim : ∃ rest', trim cs = c :: rest' := by
        rw [trim, hcs, trimEnd]
        split <;> simp [hspace]
      obtain ⟨rest', hrest⟩ := htrim
      rw [hrest, trimStart, List.dropWhile_cons_of_neg (by simp [hspace])]
  rw [trim, hstart, trim, trimEnd_trimEnd]

end Text

open Text

/-! ## Ports -/

/-- A port that its text gives back. -/
@[mk_iff]
structure PortItem.IsLiteral (item : PortItem) : Prop where
  loop : item.loop = none
  slash : '/' ∉ item.port.toList
  port : trim item.port.toList = item.port.toList
  protocol : trim item.protocol.toList = item.protocol.toList

instance (item : PortItem) : Decidable item.IsLiteral :=
  decidable_of_iff' _ item.isLiteral_iff

theorem PortItem.ofSpec_spec {item : PortItem} (h : item.IsLiteral) : ofSpec item.spec = item := by
  have hcut : splitFirst '/' item.spec.toList =
      some (item.port.toList, item.protocol.toList) := by
    refine splitFirst_eq_some.mpr ⟨?_, h.slash⟩
    simp [spec]
  rw [ofSpec, hcut]
  simp only [h.port, h.protocol, String.ofList_toList, ← h.loop]

theorem PortItem.isLiteral_ofSpec (spec : String) : (PortItem.ofSpec spec).IsLiteral := by
  have hstandard : trim PortProtocol.standard.name.toList = PortProtocol.standard.name.toList := by
    decide
  rw [PortItem.ofSpec]
  cases hcut : splitFirst '/' spec.toList with
  | none =>
    have hslash : '/' ∉ trim spec.toList := fun h => splitFirst_eq_none.mp hcut (mem_of_mem_trim h)
    exact ⟨rfl, by simpa using hslash, by simp [trim_trim], hstandard⟩
  | some parts =>
    have hslash : '/' ∉ trim parts.1 := fun h => (splitFirst_eq_some.mp hcut).2 (mem_of_mem_trim h)
    exact ⟨rfl, by simpa using hslash, by simp [trim_trim], by simp [trim_trim]⟩

/-! ## Forward ports -/

namespace ForwardPort

/-- The name of a field, with its equals sign. -/
def Part.head : Part → List Char
  | .port => ['p', 'o', 'r', 't', '=']
  | .proto => ['p', 'r', 'o', 't', 'o', '=']
  | .toPort => ['t', 'o', 'p', 'o', 'r', 't', '=']
  | .toAddr => ['t', 'o', 'a', 'd', 'd', 'r', '=']

/-- No part of the value between two colons would start a field. -/
def IsFree (value : List Char) : Prop :=
  ∀ part : Part, ¬ ':' :: part.head <:+: value

instance (value : List Char) : Decidable (IsFree value) :=
  decidable_of_iff (∀ part ∈ [Part.port, .proto, .toPort, .toAddr], ¬ ':' :: part.head <:+: value)
    ⟨fun h part => h part (by cases part <;> simp), fun h part _ => h part⟩

theorem startsPart?_head (part : Part) (value : List Char) :
    startsPart? (part.head ++ value) = some (part, value) := by
  cases part <;> rfl

theorem eq_head_of_startsPart? {segment value : List Char} {part : Part}
    (h : startsPart? segment = some (part, value)) : segment = part.head ++ value := by
  rw [startsPart?, Option.bind_eq_some_iff] at h
  obtain ⟨⟨name, after⟩, hcut, hname⟩ := h
  obtain ⟨rfl, -⟩ := splitFirst_eq_some.mp hcut
  obtain ⟨p, hp, hpair⟩ := Option.map_eq_some_iff.mp hname
  obtain ⟨rfl, rfl⟩ := Prod.mk.inj hpair
  unfold Part.ofName? at hp
  split at hp <;> cases hp <;> rfl

theorem joinWith_pieces (mark : Char) (cs : List Char) :
    joinWith [mark] (pieces (· == mark) cs) = cs := by
  induction cs with
  | nil => rfl
  | cons c cs ih =>
    obtain ⟨w, ws, hw⟩ := List.exists_cons_of_ne_nil (pieces_ne_nil (· == mark) cs)
    by_cases hc : (c == mark) = true
    · rw [pieces_cons_of_pos (p := (· == mark)) hc, hw, joinWith, ← hw, ih, beq_iff_eq.mp hc]
      rfl
    · rw [pieces_cons_of_neg (p := (· == mark)) hc hw]
      rw [hw] at ih
      cases ws <;> exact congrArg (c :: ·) ih

theorem joinWith_cons (mark w : List Char) (ws : List (List Char)) :
    ∃ rest, joinWith mark (w :: ws) = w ++ rest := by
  cases ws with
  | nil => exact ⟨[], (List.append_nil w).symm⟩
  | cons v ws => exact ⟨mark ++ joinWith mark (v :: ws), List.append_assoc ..⟩

theorem infix_joinWith {mark piece w : List Char} {ws : List (List Char)} (h : piece ∈ ws) :
    mark ++ piece <:+: joinWith mark (w :: ws) := by
  induction ws generalizing w with
  | nil => cases h
  | cons v ws ih =>
    rw [joinWith, List.append_assoc]
    rcases List.mem_cons.mp h with rfl | h
    · obtain ⟨rest, hrest⟩ := joinWith_cons mark piece ws
      exact ⟨w, rest, by simp [hrest]⟩
    · refine (ih (w := v) h).trans ?_
      exact ((List.suffix_append mark _).trans (List.suffix_append w _)).isInfix

theorem startsPart?_of_isFree {value : List Char} (hfree : IsFree value) {w : List Char}
    {ws : List (List Char)} (hw : pieces (· == ':') value = w :: ws) :
    ∀ piece ∈ ws, startsPart? piece = none := by
  intro piece hpiece
  cases hs : startsPart? piece with
  | none => rfl
  | some found =>
    obtain ⟨part, after⟩ := found
    have hvalue : joinWith [':'] (w :: ws) = value := hw ▸ joinWith_pieces ':' value
    refine absurd ?_ (hfree part)
    rw [← hvalue]
    refine List.IsInfix.trans ?_ (infix_joinWith hpiece)
    rw [eq_head_of_startsPart? hs]
    exact (List.prefix_append (':' :: part.head) after).isInfix

theorem gather_loose {loose segments : List (List Char)} {parts : List (Part × List Char)}
    (hloose : ∀ piece ∈ loose, startsPart? piece = none) (h : gather segments = ([], parts)) :
    gather (loose ++ segments) = (loose, parts) := by
  induction loose with
  | nil => exact h
  | cons piece loose ih =>
    obtain ⟨hpiece, hloose⟩ := List.forall_mem_cons.mp hloose
    rw [List.cons_append, gather, ih hloose, hpiece]

theorem gather_field (part : Part) {value : List Char} (hfree : IsFree value)
    {segments : List (List Char)} {parts : List (Part × List Char)}
    (h : gather segments = ([], parts)) :
    gather (pieces (· == ':') (part.head ++ value) ++ segments) = ([], (part, value) :: parts) := by
  obtain ⟨w, ws, hw⟩ := List.exists_cons_of_ne_nil (pieces_ne_nil (· == ':') value)
  have hvalue : joinWith [':'] (w :: ws) = value := hw ▸ joinWith_pieces ':' value
  have hhead : part.head.any (· == ':') = false := by cases part <;> decide
  have hpieces : pieces (· == ':') (part.head ++ value) = (part.head ++ w) :: ws :=
    pieces_append_of_not (List.any_eq_false.mp hhead) hw
  rw [hpieces, List.cons_append, gather, gather_loose (startsPart?_of_isFree hfree hw) h,
    startsPart?_head]
  simp [hvalue]

/-- A forward port that its text gives back. -/
@[mk_iff]
structure IsLiteral (item : ForwardPort) : Prop where
  loop : item.loop = none
  port_ne : item.port ≠ ""
  port : IsFree item.port.toList
  protocol : IsFree item.protocol.toList
  toPort : ∀ value ∈ item.toPort, IsFree value.toList
  toAddr : ∀ value ∈ item.toAddr, IsFree value.toList

instance (item : ForwardPort) : Decidable item.IsLiteral :=
  decidable_of_iff' _ item.isLiteral_iff

/-- The fields of the written form. -/
def fields (item : ForwardPort) : List (Part × List Char) :=
  (.port, item.port.toList) :: (.proto, item.protocol.toList) ::
    (item.toPort.toList.map (Part.toPort, ·.toList) ++ item.toAddr.toList.map (Part.toAddr, ·.toList))

theorem toList_spec (item : ForwardPort) :
    item.spec.toList =
      [':'].intercalate (item.fields.map fun (part, value) => part.head ++ value) := by
  cases item with
  | mk port protocol toPort toAddr loop =>
    cases toPort <;> cases toAddr <;> simp [spec, fields, Part.head]

theorem gather_fields {fields : List (Part × List Char)} (hfree : ∀ f ∈ fields, IsFree f.2)
    (hne : fields ≠ []) :
    gather (pieces (· == ':')
      ([':'].intercalate (fields.map fun (part, value) => part.head ++ value))) = ([], fields) := by
  induction fields with
  | nil => exact absurd rfl hne
  | cons f fields ih =>
    obtain ⟨part, value⟩ := f
    obtain ⟨hvalue, hfree⟩ := List.forall_mem_cons.mp hfree
    cases fields with
    | nil =>
      rw [List.map_singleton, List.intercalate_singleton, ← List.append_nil (pieces _ _)]
      exact gather_field part hvalue rfl
    | cons g fields =>
      rw [List.map_cons, List.map_cons, List.intercalate_cons_cons, List.append_assoc,
        List.singleton_append, pieces_append_cons (p := (· == ':')) rfl]
      exact gather_field part hvalue (ih hfree (List.cons_ne_nil _ _))

theorem IsLiteral.fields_free {item : ForwardPort} (h : item.IsLiteral) :
    ∀ f ∈ item.fields, IsFree f.2 := by
  intro f hf
  simp only [fields, List.mem_cons, List.mem_append, List.mem_map, Option.mem_toList] at hf
  rcases hf with rfl | rfl | ⟨value, hvalue, rfl⟩ | ⟨value, hvalue, rfl⟩
  · exact h.port
  · exact h.protocol
  · exact h.toPort value hvalue
  · exact h.toAddr value hvalue

theorem foldl_setPart_fields (item : ForwardPort) :
    item.fields.foldl setPart { port := "", protocol := PortProtocol.standard.name } =
      { item with loop := none } := by
  cases item with
  | mk port protocol toPort toAddr loop =>
    cases toPort <;> cases toAddr <;> simp [fields, setPart]

theorem ofSpec?_spec {item : ForwardPort} (h : item.IsLiteral) : ofSpec? item.spec = .ok item := by
  rw [ofSpec?, toList_spec, gather_fields h.fields_free (List.cons_ne_nil _ _)]
  have hitem : { item with loop := none } = item := by rw [← h.loop]
  simp only [foldl_setPart_fields, hitem, String.isEmpty_iff, h.port_ne, if_false]

/-! ## What is read -/

theorem not_mem_of_mem_pieces {mark : Char} {cs piece : List Char}
    (h : piece ∈ pieces (· == mark) cs) : mark ∉ piece := by
  induction cs generalizing piece with
  | nil => simp_all [pieces_nil]
  | cons c cs ih =>
    by_cases hc : (c == mark) = true
    · rw [pieces_cons_of_pos (p := (· == mark)) hc] at h
      rcases List.mem_cons.mp h with rfl | h
      · exact List.not_mem_nil
      · exact ih h
    · obtain ⟨w, ws, hw⟩ := List.exists_cons_of_ne_nil (pieces_ne_nil (· == mark) cs)
      rw [pieces_cons_of_neg (p := (· == mark)) hc hw] at h
      rw [hw] at ih
      rcases List.mem_cons.mp h with rfl | h
      · have hne : mark ≠ c := fun heq => hc (beq_iff_eq.mpr heq.symm)
        simpa [hne] using ih List.mem_cons_self
      · exact ih (List.mem_cons_of_mem _ h)

theorem pieces_joinWith {mark : Char} {w : List Char} {ws : List (List Char)}
    (h : ∀ v ∈ w :: ws, mark ∉ v) : pieces (· == mark) (joinWith [mark] (w :: ws)) = w :: ws := by
  have hpiece {v : List Char} (hv : mark ∉ v) : ∀ c ∈ v, ¬ (c == mark) = true := by
    intro c hc heq
    exact hv (beq_iff_eq.mp heq ▸ hc)
  induction ws generalizing w with
  | nil => exact pieces_of_not (hpiece (h w List.mem_cons_self))
  | cons v ws ih =>
    obtain ⟨hw, hws⟩ := List.forall_mem_cons.mp h
    rw [joinWith, List.append_assoc, List.singleton_append,
      pieces_append_cons (p := (· == mark)) (beq_self_eq_true mark), ih hws,
      pieces_of_not (hpiece hw)]
    rfl

theorem isFree_joinWith {w : List Char} {ws : List (List Char)} (hmark : ∀ v ∈ w :: ws, ':' ∉ v)
    (hloose : ∀ v ∈ ws, startsPart? v = none) : IsFree (joinWith [':'] (w :: ws)) := by
  rintro part ⟨front, back, heq⟩
  have hpieces := pieces_joinWith hmark
  obtain ⟨v, vs, hv⟩ := List.exists_cons_of_ne_nil (pieces_ne_nil (· == ':') back)
  have hhead : part.head.any (· == ':') = false := by cases part <;> decide
  rw [← heq, List.append_assoc, List.cons_append, pieces_append_cons (p := (· == ':')) rfl,
    pieces_append_of_not (List.any_eq_false.mp hhead) hv] at hpieces
  -- the piece that the name of the field stands in is not the first one
  have hmem : part.head ++ v ∈ ws := by
    obtain ⟨u, us, hu⟩ := List.exists_cons_of_ne_nil (pieces_ne_nil (· == ':') front)
    rw [hu, List.cons_append, List.cons.injEq] at hpieces
    rw [← hpieces.2]
    simp
  have hnone := hloose _ hmem
  rw [startsPart?_head] at hnone
  cases hnone

theorem gather_free {segments : List (List Char)} (h : ∀ segment ∈ segments, ':' ∉ segment) :
    (∀ piece ∈ (gather segments).1, ':' ∉ piece ∧ startsPart? piece = none) ∧
      ∀ f ∈ (gather segments).2, IsFree f.2 := by
  induction segments with
  | nil => simp [gather]
  | cons segment segments ih =>
    obtain ⟨hsegment, hsegments⟩ := List.forall_mem_cons.mp h
    obtain ⟨hloose, hparts⟩ := ih hsegments
    rw [gather]
    cases hstarts : startsPart? segment with
    | none => exact ⟨List.forall_mem_cons.mpr ⟨⟨hsegment, hstarts⟩, hloose⟩, hparts⟩
    | some found =>
      obtain ⟨part, value⟩ := found
      have hvalue : ':' ∉ value := by
        rw [eq_head_of_startsPart? hstarts] at hsegment
        exact fun hmem => hsegment (List.mem_append_right _ hmem)
      have hfree : IsFree (joinWith [':'] (value :: (gather segments).1)) :=
        isFree_joinWith (List.forall_mem_cons.mpr ⟨hvalue, fun v hv => (hloose v hv).1⟩)
          fun v hv => (hloose v hv).2
      exact ⟨fun _ hmem => absurd hmem List.not_mem_nil, List.forall_mem_cons.mpr ⟨hfree, hparts⟩⟩

theorem fields_setPart {item : ForwardPort} {f : Part × List Char} {part : Part × List Char}
    (h : f ∈ (item.setPart part).fields) : f = part ∨ f ∈ item.fields := by
  obtain ⟨name, value⟩ := part
  cases name <;>
    simp only [setPart, fields, List.mem_cons, List.mem_append, String.toList_ofList,
      Option.toList_some, List.map_singleton, List.not_mem_nil, or_false] at h ⊢ <;>
    tauto

theorem fields_foldl_setPart {parts : List (Part × List Char)} {item : ForwardPort}
    (hparts : ∀ f ∈ parts, IsFree f.2) (hitem : ∀ f ∈ item.fields, IsFree f.2) :
    ∀ f ∈ (parts.foldl setPart item).fields, IsFree f.2 := by
  induction parts generalizing item with
  | nil => exact hitem
  | cons part parts ih =>
    obtain ⟨hpart, hparts⟩ := List.forall_mem_cons.mp hparts
    refine ih hparts fun f hf => ?_
    rcases fields_setPart hf with rfl | hf
    · exact hpart
    · exact hitem f hf

theorem loop_foldl_setPart (parts : List (Part × List Char)) (item : ForwardPort) :
    (parts.foldl setPart item).loop = item.loop := by
  induction parts generalizing item with
  | nil => rfl
  | cons part parts ih =>
    obtain ⟨part, value⟩ := part
    rw [List.foldl_cons, ih]
    cases part <;> rfl

theorem isLiteral_of_fields {item : ForwardPort} (hloop : item.loop = none) (hport : item.port ≠ "")
    (h : ∀ f ∈ item.fields, IsFree f.2) : item.IsLiteral where
  loop := hloop
  port_ne := hport
  port := h (.port, item.port.toList) (by simp [fields])
  protocol := h (.proto, item.protocol.toList) (by simp [fields])
  toPort := fun value hvalue => h (.toPort, value.toList) (by simp_all [fields])
  toAddr := fun value hvalue => h (.toAddr, value.toList) (by simp_all [fields])

theorem isLiteral_of_ofSpec? {spec : String} {item : ForwardPort} (h : ofSpec? spec = .ok item) :
    item.IsLiteral := by
  have hsegments : ∀ segment ∈ pieces (· == ':') spec.toList, ':' ∉ segment :=
    fun _ => not_mem_of_mem_pieces
  obtain ⟨-, hparts⟩ := gather_free hsegments
  rw [ofSpec?] at h
  split at h
  · cases h
  · rename_i parts hgather
    dsimp only at h
    split at h
    · cases h
    · rename_i hport
      cases h
      rw [hgather] at hparts
      refine isLiteral_of_fields (loop_foldl_setPart _ _) (by simpa using hport) ?_
      exact fields_foldl_setPart hparts (by decide)

end ForwardPort

/-- **Ports and their texts.** A port that is read from any text is read from its own text again, and
so is a forward port. The forward ports with this property are the literal ones: they repeat for
nothing, name a port, and no value has a colon in it with the name of a field and `=` behind. -/
theorem ofSpec_spec_ofSpec :
    (∀ spec, PortItem.ofSpec (PortItem.ofSpec spec).spec = PortItem.ofSpec spec) ∧
      (∀ spec item, ForwardPort.ofSpec? spec = .ok item → ForwardPort.ofSpec? item.spec = .ok item) ∧
      ∀ item : ForwardPort, ForwardPort.ofSpec? item.spec = .ok item ↔ item.IsLiteral := by
  refine ⟨fun spec => PortItem.ofSpec_spec (PortItem.isLiteral_ofSpec spec), ?_, ?_⟩
  · intro spec item h
    exact ForwardPort.ofSpec?_spec (ForwardPort.isLiteral_of_ofSpec? h)
  · intro item
    exact ⟨ForwardPort.isLiteral_of_ofSpec?, ForwardPort.ofSpec?_spec⟩

/-- An address of several colons, among them one in front of a name that is no field, and a port that
is given twice; a port of one blank, an empty protocol, and the name of a field without a colon. -/
theorem ofSpec_spec_ofSpec_address :
    let spec := "port=80:proto=tcp:toaddr=fd00::1:to=x:port=8080"
    let item : ForwardPort :=
      { port := "8080", protocol := "tcp", toAddr := some "fd00::1:to=x" }
    let other : ForwardPort := { port := " ", protocol := "", toPort := some "proto=:" }
    ForwardPort.ofSpec? spec = .ok item ∧
      item.spec = "port=8080:proto=tcp:toaddr=fd00::1:to=x" ∧
      ForwardPort.ofSpec? item.spec = .ok item ∧
      other.IsLiteral ∧ ForwardPort.ofSpec? other.spec = .ok other := by
  intro spec item other
  have hread : ForwardPort.ofSpec? spec = .ok item := by decide +kernel
  have hliteral : other.IsLiteral := by decide +kernel
  exact ⟨hread, by decide +kernel, ofSpec_spec_ofSpec.2.1 spec item hread, hliteral,
    (ofSpec_spec_ofSpec.2.2 other).mpr hliteral⟩

end ZoneScript
