import Mathlib.Data.Finset.Basic
import ZoneScript.Script.Write

/-!
# Taking a script back

Runs the lines of a script over a store of what the firewall holds, once for the permanent configuration
and once for the running one. The script that removes a configuration undoes the script that applies
it, and it leaves no rule behind in a chain that it removes.
-/

namespace ZoneScript.Script

/-! ## The store -/

/-- An entry that is there or not, known by what its command line says. -/
inductive Item where
  | entry (zone stem : String) (value : Option String)
  | chain (chain : DirectChain)
  | rule (ipv table chain : String) (priority : Int) (args : String)
  | passthrough (ipv args : String)
  deriving DecidableEq, Repr

/-- What a firewall holds. Every zone has a target. -/
@[ext]
structure Store where
  items : Finset Item
  target : String → String

namespace Store

def clean : Store where
  items := ∅
  target _ := ZoneTarget.standard.name

def set (store : Store) (item : Item) : Verb → Store
  | .add => { store with items := insert item store.items }
  | .remove => { store with items := store.items.erase item }

/-- The store after a change. -/
def step (store : Store) : Change → Store
  | .target zone value => { store with target := Function.update store.target zone value }
  | .entry verb zone f value => store.set (.entry zone f.stem value) verb
  | .chain verb chain => store.set (.chain chain) verb
  | .rule verb r => store.set (.rule r.ipv r.table r.chain r.priority r.args) verb
  | .passthrough verb p => store.set (.passthrough p.ipv p.args) verb

def run (store : Store) (changes : List Change) : Store :=
  changes.foldl step store

end Store

/-- The permanent configuration and the running one. -/
@[ext]
structure Firewall where
  permanent : Store
  running : Store

namespace Firewall

def clean : Firewall where
  permanent := .clean
  running := .clean

def copy (firewall : Firewall) : Bool → Store
  | true => firewall.permanent
  | false => firewall.running

/-- The firewall after a line. Only commands that change something count. -/
def step (firewall : Firewall) : Line → Firewall
  | .command true change => { firewall with permanent := firewall.permanent.step change }
  | .command false change => { firewall with running := firewall.running.step change }
  | .banner _ | .reload => firewall

def run (firewall : Firewall) (lines : List Line) : Firewall :=
  lines.foldl step firewall

end Firewall

/-! ## What a change speaks of -/

namespace Change

/-- The entry that a change adds or removes. -/
def item? : Change → Option Item
  | .target .. => none
  | .entry _ zone f value => some (.entry zone f.stem value)
  | .chain _ c => some (.chain c)
  | .rule _ r => some (.rule r.ipv r.table r.chain r.priority r.args)
  | .passthrough _ p => some (.passthrough p.ipv p.args)

/-- The zone whose target a change sets. -/
def targetZone? : Change → Option String
  | .target zone _ => some zone
  | _ => none

/-- The change that takes this one back. -/
def undo : Change → Change
  | .target zone _ => .target zone ZoneTarget.standard.name
  | .entry _ zone f value => .entry .remove zone f value
  | .chain _ c => .chain .remove c
  | .rule _ r => .rule .remove r
  | .passthrough _ p => .passthrough .remove p

/-- Whether the change goes this way: removing a target means setting the standard one. -/
def Goes (verb : Verb) : Change → Prop
  | .target _ value => verb = .remove → value = ZoneTarget.standard.name
  | .entry v .. | .chain v _ | .rule v _ | .passthrough v _ => v = verb

@[simp]
theorem item?_undo (change : Change) : change.undo.item? = change.item? := by
  cases change <;> rfl

@[simp]
theorem targetZone?_undo (change : Change) : change.undo.targetZone? = change.targetZone? := by
  cases change <;> rfl

@[simp]
theorem hasRuntimeForm_undo (change : Change) :
    change.undo.hasRuntimeForm = change.hasRuntimeForm := by
  cases change <;> rfl

end Change

/-! ## What a step and a run do to the store -/

theorem Store.mem_step_of_add {change : Change} (h : change.Goes .add) (store : Store) (item : Item) :
    item ∈ (store.step change).items ↔ change.item? = some item ∨ item ∈ store.items := by
  cases change <;> simp only [Change.Goes] at h <;>
    simp [Store.step, Store.set, Change.item?, h, eq_comm]

theorem Store.mem_step_of_remove {change : Change} (h : change.Goes .remove) (store : Store)
    (item : Item) :
    item ∈ (store.step change).items ↔ change.item? ≠ some item ∧ item ∈ store.items := by
  cases change <;> simp only [Change.Goes] at h <;>
    simp [Store.step, Store.set, Change.item?, h, eq_comm]

theorem Store.target_step_of_remove {change : Change} (h : change.Goes .remove) (store : Store)
    (zone : String) :
    (store.step change).target zone =
      if change.targetZone? = some zone then ZoneTarget.standard.name else store.target zone := by
  cases change with
  | target z value =>
    simp only [Change.Goes, true_implies] at h
    simp [Store.step, Change.targetZone?, h, Function.update_apply, eq_comm]
  | entry v z f value | chain v c | rule v r | passthrough v p =>
    cases v <;> simp [Store.step, Store.set, Change.targetZone?]

theorem Store.target_step_of_ne {change : Change} {zone : String}
    (h : change.targetZone? ≠ some zone) (store : Store) :
    (store.step change).target zone = store.target zone := by
  cases change with
  | target z value =>
    simp only [Change.targetZone?, ne_eq, Option.some.injEq] at h
    simp [Store.step, Ne.symm h]
  | entry v z f value | chain v c | rule v r | passthrough v p =>
    cases v <;> rfl

theorem Store.mem_run_of_add {changes : List Change} (h : ∀ c ∈ changes, c.Goes .add) (store : Store)
    (item : Item) :
    item ∈ (store.run changes).items ↔
      (∃ c ∈ changes, c.item? = some item) ∨ item ∈ store.items := by
  induction changes generalizing store with
  | nil => simp [Store.run]
  | cons c changes ih =>
    have hc := h c List.mem_cons_self
    refine (ih (fun d hd => h d (List.mem_cons_of_mem _ hd)) (store.step c)).trans ?_
    rw [Store.mem_step_of_add hc]
    simp only [List.exists_mem_cons_iff]
    rw [or_left_comm, or_assoc]

theorem Store.mem_run_of_remove {changes : List Change} (h : ∀ c ∈ changes, c.Goes .remove)
    (store : Store) (item : Item) :
    item ∈ (store.run changes).items ↔
      (∀ c ∈ changes, c.item? ≠ some item) ∧ item ∈ store.items := by
  induction changes generalizing store with
  | nil => simp [Store.run]
  | cons c changes ih =>
    have hc := h c List.mem_cons_self
    refine (ih (fun d hd => h d (List.mem_cons_of_mem _ hd)) (store.step c)).trans ?_
    rw [Store.mem_step_of_remove hc, List.forall_mem_cons]
    tauto

theorem Store.target_run_of_remove {changes : List Change} (h : ∀ c ∈ changes, c.Goes .remove)
    {zone : String} {store : Store}
    (hz : (∃ c ∈ changes, c.targetZone? = some zone) ∨
      store.target zone = ZoneTarget.standard.name) :
    (store.run changes).target zone = ZoneTarget.standard.name := by
  induction changes generalizing store with
  | nil => simpa [Store.run] using hz
  | cons c changes ih =>
    show ((store.step c).run changes).target zone = ZoneTarget.standard.name
    refine ih (fun d hd => h d (List.mem_cons_of_mem _ hd)) ?_
    rw [Store.target_step_of_remove (h c List.mem_cons_self)]
    by_cases hc : c.targetZone? = some zone
    · exact .inr (if_pos hc)
    · rw [if_neg hc]
      simpa [hc] using hz

theorem Store.target_run_of_ne {changes : List Change} {zone : String}
    (h : ∀ c ∈ changes, c.targetZone? ≠ some zone) (store : Store) :
    (store.run changes).target zone = store.target zone := by
  induction changes generalizing store with
  | nil => rfl
  | cons c changes ih =>
    refine (ih (fun d hd => h d (List.mem_cons_of_mem _ hd)) (store.step c)).trans ?_
    exact Store.target_step_of_ne (h c List.mem_cons_self) store

/-- Changes and then the changes that take them back leave nothing in a clean store. -/
theorem Store.run_undo {forth back : List Change} (hforth : ∀ c ∈ forth, c.Goes .add)
    (hback : ∀ c ∈ back, c.Goes .remove) (h : ∀ c ∈ forth, c.undo ∈ back) :
    (Store.clean.run forth).run back = .clean := by
  apply Store.ext
  case items =>
    ext item
    rw [mem_run_of_remove hback, mem_run_of_add hforth]
    simp only [clean, Finset.notMem_empty, or_false, iff_false, not_and, not_exists]
    intro hnot c hc hitem
    exact hnot c.undo (h c hc) (by rw [Change.item?_undo, hitem])
  case target =>
    funext zone
    apply target_run_of_remove hback
    by_cases hz : ∃ c ∈ forth, c.targetZone? = some zone
    · obtain ⟨c, hc, hzone⟩ := hz
      exact .inl ⟨c.undo, h c hc, by rw [Change.targetZone?_undo, hzone]⟩
    · right
      refine target_run_of_ne ?_ _
      intro c hc hzone
      exact hz ⟨c, hc, hzone⟩

/-! ## The changes of a script -/

/-- The changes that the lines make in one of the two configurations. -/
def changesOf (permanent : Bool) (lines : List Line) : List Change :=
  lines.filterMap fun
    | .command p change => if p = permanent then some change else none
    | _ => none

theorem mem_changesOf {permanent : Bool} {change : Change} {lines : List Line} :
    change ∈ changesOf permanent lines ↔ .command permanent change ∈ lines := by
  simp only [changesOf, List.mem_filterMap]
  constructor
  · rintro ⟨line, hline, h⟩
    cases line <;> grind
  · intro h
    exact ⟨_, h, if_pos rfl⟩

theorem changesOf_append (permanent : Bool) (xs ys : List Line) :
    changesOf permanent (xs ++ ys) = changesOf permanent xs ++ changesOf permanent ys :=
  List.filterMap_append ..

/-- Each configuration sees its own changes only. -/
theorem Firewall.copy_run (permanent : Bool) (firewall : Firewall) (lines : List Line) :
    (firewall.run lines).copy permanent = (firewall.copy permanent).run (changesOf permanent lines) := by
  induction lines generalizing firewall with
  | nil => rfl
  | cons line lines ih =>
    refine (ih (firewall.step line)).trans ?_
    cases line with
    | banner text | reload => rfl
    | command p change => cases p <;> cases permanent <;> rfl

/-- The changes that a script makes, in whatever order. -/
def allChanges (direction : Direction) (config : Config) : List Change :=
  (config.zones.flatMap fun (name, zone) => zoneChanges direction.verb name zone) ++
    config.direct.toList.flatMap (directChanges direction)

theorem mem_fieldChanges_goes {verb : Verb} {name : String} {zone : Zone} {f : ZoneField}
    {change : Change} (h : change ∈ fieldChanges verb name zone f) : change.Goes verb := by
  cases f <;> cases verb <;> simp [fieldChanges, ZoneField.kind] at h <;> grind [Change.Goes]

theorem undo_mem_fieldChanges {name : String} {zone : Zone} {f : ZoneField} {change : Change}
    (h : change ∈ fieldChanges .add name zone f) : change.undo ∈ fieldChanges .remove name zone f := by
  cases f <;> simp [fieldChanges, ZoneField.kind] at h ⊢ <;> grind [Change.undo]

theorem mem_directChanges {direction : Direction} {direct : Direct} {change : Change} :
    change ∈ directChanges direction direct ↔
      (∃ c ∈ direct.chains, .chain direction.verb c = change) ∨
        (∃ r ∈ direct.rules, .rule direction.verb r = change) ∨
          ∃ p ∈ direct.passthroughs, .passthrough direction.verb p = change := by
  cases direction with
  | apply => simp only [directChanges, List.mem_append, List.mem_map, mem_distinct, or_assoc]
  | remove =>
    simp only [directChanges, List.mem_append, List.mem_map, mem_distinct]
    rw [or_comm]

theorem allChanges_goes {direction : Direction} {config : Config} {change : Change}
    (h : change ∈ allChanges direction config) : change.Goes direction.verb := by
  rw [allChanges, List.mem_append, List.mem_flatMap, List.mem_flatMap] at h
  rcases h with ⟨⟨name, zone⟩, -, h⟩ | ⟨direct, -, h⟩
  · obtain ⟨f, -, hf⟩ := List.mem_flatMap.mp h
    exact mem_fieldChanges_goes hf
  · rcases mem_directChanges.mp h with ⟨c, -, rfl⟩ | ⟨r, -, rfl⟩ | ⟨p, -, rfl⟩ <;> rfl

theorem undo_mem_allChanges {config : Config} {change : Change}
    (h : change ∈ allChanges .apply config) : change.undo ∈ allChanges .remove config := by
  rw [allChanges, List.mem_append, List.mem_flatMap, List.mem_flatMap] at h ⊢
  rcases h with ⟨⟨name, zone⟩, hzone, h⟩ | ⟨direct, hdirect, h⟩
  · obtain ⟨f, hf, h⟩ := List.mem_flatMap.mp h
    exact .inl ⟨_, hzone, List.mem_flatMap.mpr ⟨f, hf, undo_mem_fieldChanges h⟩⟩
  · refine .inr ⟨direct, hdirect, mem_directChanges.mpr ?_⟩
    rcases mem_directChanges.mp h with ⟨c, hc, rfl⟩ | ⟨r, hr, rfl⟩ | ⟨p, hp, rfl⟩
    · exact .inl ⟨c, hc, rfl⟩
    · exact .inr (.inl ⟨r, hr, rfl⟩)
    · exact .inr (.inr ⟨p, hp, rfl⟩)

/-! ## The lines of a script -/

/-- The banner of a block, if there is one. -/
def header (options : Options) (banner : String) (changes : List Change) : List Line :=
  if changes.isEmpty || !options.banners then [] else [.banner banner]

theorem block_eq (options : Options) (banner : String) (changes : List Change) :
    block options banner changes =
      header options banner changes ++ changes.flatMap (changeLines options) := by
  cases changes with
  | nil => rfl
  | cons c changes => cases h : options.banners <;> simp [block, header, h]

theorem eq_banner_of_mem_header {options : Options} {banner : String} {changes : List Change}
    {line : Line} (h : line ∈ header options banner changes) : line = .banner banner := by
  unfold header at h
  split at h
  · contradiction
  · exact List.mem_singleton.mp h

/-- Whether the lines of a change change this configuration. -/
def Reaches (options : Options) (permanent : Bool) (change : Change) : Prop :=
  permanent = true ∨ options.transient = true ∧ change.hasRuntimeForm = true

theorem mem_changeLines {options : Options} {change : Change} {line : Line} :
    line ∈ changeLines options change ↔
      ∃ permanent, Reaches options permanent change ∧ line = .command permanent change := by
  simp only [changeLines, Reaches, Bool.exists_bool]
  split
  · simp_all [or_comm]
  · simp_all

theorem command_mem_block {options : Options} {banner : String} {changes : List Change}
    {permanent : Bool} {change : Change} :
    .command permanent change ∈ block options banner changes ↔
      change ∈ changes ∧ Reaches options permanent change := by
  rw [block_eq, List.mem_append, List.mem_flatMap]
  constructor
  · rintro (h | ⟨c, hc, h⟩)
    · cases eq_banner_of_mem_header h
    · obtain ⟨p, hp, he⟩ := mem_changeLines.mp h
      cases he
      exact ⟨hc, hp⟩
  · rintro ⟨hc, hp⟩
    exact .inr ⟨change, hc, mem_changeLines.mpr ⟨permanent, hp, rfl⟩⟩

/-- The changes that a script makes, in its order. -/
def orderedChanges (direction : Direction) (config : Config) : List Change :=
  let zones := config.zones.flatMap fun (name, zone) => zoneChanges direction.verb name zone
  let direct := config.direct.toList.flatMap (directChanges direction)
  match direction with
  | .apply => zones ++ direct
  | .remove => direct ++ zones

theorem ofConfig_of_not_banners {options : Options} (h : options.banners = false)
    (direction : Direction) (config : Config) :
    ofConfig options direction config =
      (orderedChanges direction config).flatMap (changeLines options) ++
        if options.transient then [] else [.reload] := by
  have hblock (banner : String) (changes : List Change) :
      block options banner changes = changes.flatMap (changeLines options) := by
    rw [block_eq, header, h, Bool.not_false, Bool.or_true, if_pos rfl, List.nil_append]
  cases direction <;>
    simp only [ofConfig, zoneLines, directLines, hblock, orderedChanges, List.flatMap_append,
      List.flatMap_assoc]

theorem mem_ofConfig {options : Options} {direction : Direction} {config : Config} {line : Line} :
    line ∈ ofConfig options direction config ↔
      line ∈ zoneLines options direction config ∨ line ∈ directLines options direction config ∨
        line ∈ (if options.transient then [] else [Line.reload]) := by
  cases direction <;> simp only [ofConfig, List.mem_append] <;> tauto

theorem command_mem_ofConfig {options : Options} {direction : Direction} {config : Config}
    {permanent : Bool} {change : Change} :
    .command permanent change ∈ ofConfig options direction config ↔
      change ∈ allChanges direction config ∧ Reaches options permanent change := by
  have hreload : Line.command permanent change ∉ (if options.transient then [] else [Line.reload]) := by
    split <;> simp
  rw [mem_ofConfig, or_iff_left hreload]
  simp only [zoneLines, directLines, allChanges, List.mem_append, List.mem_flatMap,
    command_mem_block, or_and_right]
  grind

theorem changesOf_goes (options : Options) {direction : Direction} {config : Config}
    {permanent : Bool} {change : Change}
    (h : change ∈ changesOf permanent (ofConfig options direction config)) :
    change.Goes direction.verb :=
  allChanges_goes (command_mem_ofConfig.mp (mem_changesOf.mp h)).1

theorem undo_mem_changesOf {options : Options} {config : Config} {permanent : Bool} {change : Change}
    (h : change ∈ changesOf permanent (ofConfig options .apply config)) :
    change.undo ∈ changesOf permanent (ofConfig options .remove config) := by
  rw [mem_changesOf, command_mem_ofConfig] at h ⊢
  exact ⟨undo_mem_allChanges h.1, by simpa [Reaches] using h.2⟩

theorem run_remove_run_apply (options : Options) (config : Config) :
    (Firewall.clean.run (ofConfig options .apply config)).run (ofConfig options .remove config) =
      .clean := by
  have copies (permanent : Bool) : ((Firewall.clean.run (ofConfig options .apply config)).run
      (ofConfig options .remove config)).copy permanent = Firewall.clean.copy permanent := by
    have hclean : Firewall.clean.copy permanent = Store.clean := by cases permanent <;> rfl
    rw [Firewall.copy_run, Firewall.copy_run, hclean]
    exact Store.run_undo (fun _ => changesOf_goes options) (fun _ => changesOf_goes options)
      (fun _ => undo_mem_changesOf)
  exact Firewall.ext (copies true) (copies false)

/-! ## The order of the lines -/

def Change.isZone : Change → Bool
  | .target .. | .entry .. => true
  | _ => false

def Change.isDirect (change : Change) : Bool :=
  !change.isZone

def Change.isChain : Change → Bool
  | .chain .. => true
  | _ => false

def Change.isRule : Change → Bool
  | .rule .. => true
  | _ => false

/-- Whether the line makes such a change. -/
def Line.makes (p : Change → Bool) : Line → Bool
  | .command _ change => p change
  | _ => false

/-- No line that makes the first kind of change stands before one that makes the second kind. -/
def NeverBefore (p q : Change → Bool) (lines : List Line) : Prop :=
  lines.Pairwise fun first later => ¬ (first.makes p = true ∧ later.makes q = true)

theorem neverBefore_append {p q : Change → Bool} {xs ys : List Line}
    (hxs : ∀ line ∈ xs, line.makes p = false) (hys : ∀ line ∈ ys, line.makes q = false) :
    NeverBefore p q (xs ++ ys) := by
  rw [NeverBefore, List.pairwise_append]
  refine ⟨?_, ?_, ?_⟩
  · exact List.pairwise_of_forall_mem_list fun a ha b _ => by simp [hxs a ha]
  · exact List.pairwise_of_forall_mem_list fun a _ b hb => by simp [hys b hb]
  · intro a ha b _
    simp [hxs a ha]

theorem makes_of_mem_lines {p : Change → Bool} {options : Options} {changes : List Change}
    (h : ∀ c ∈ changes, p c = false) :
    ∀ line ∈ changes.flatMap (changeLines options), line.makes p = false := by
  intro line hline
  obtain ⟨c, hc, hline⟩ := List.mem_flatMap.mp hline
  obtain ⟨permanent, -, rfl⟩ := mem_changeLines.mp hline
  exact h c hc

theorem makes_of_mem_header {p : Change → Bool} {options : Options} {banner : String}
    {changes : List Change} : ∀ line ∈ header options banner changes, line.makes p = false := by
  intro line hline
  rw [eq_banner_of_mem_header hline]
  rfl

theorem makes_of_mem_block {p : Change → Bool} {options : Options} {banner : String}
    {changes : List Change} (h : ∀ c ∈ changes, p c = false) :
    ∀ line ∈ block options banner changes, line.makes p = false := by
  rw [block_eq]
  intro line hline
  rcases List.mem_append.mp hline with hline | hline
  · exact makes_of_mem_header line hline
  · exact makes_of_mem_lines h line hline

theorem isZone_of_mem_fieldChanges {verb : Verb} {name : String} {zone : Zone} {f : ZoneField}
    {change : Change} (h : change ∈ fieldChanges verb name zone f) : change.isZone = true := by
  cases f <;> cases verb <;> simp [fieldChanges, ZoneField.kind] at h <;> grind [Change.isZone]

theorem makes_of_mem_zoneLines {p : Change → Bool} (h : ∀ c : Change, c.isZone = true → p c = false)
    {options : Options} {direction : Direction} {config : Config} :
    ∀ line ∈ zoneLines options direction config, line.makes p = false := by
  intro line hline
  obtain ⟨⟨name, zone⟩, -, hline⟩ := List.mem_flatMap.mp hline
  apply makes_of_mem_block _ line hline
  intro c hc
  obtain ⟨f, -, hc⟩ := List.mem_flatMap.mp hc
  exact h c (isZone_of_mem_fieldChanges hc)

theorem makes_of_mem_directLines {p : Change → Bool} {direction : Direction}
    (h : ∀ direct : Direct, ∀ c ∈ directChanges direction direct, p c = false) {options : Options}
    {config : Config} : ∀ line ∈ directLines options direction config, line.makes p = false := by
  intro line hline
  obtain ⟨direct, -, hline⟩ := List.mem_flatMap.mp hline
  exact makes_of_mem_block (h direct) line hline

theorem makes_of_mem_reload {p : Change → Bool} {options : Options} :
    ∀ line ∈ (if options.transient then [] else [Line.reload]), line.makes p = false := by
  intro line hline
  split at hline
  · contradiction
  · rw [List.mem_singleton.mp hline]
    rfl

theorem direct_before_zones (options : Options) (config : Config) :
    NeverBefore Change.isZone Change.isDirect (ofConfig options .remove config) := by
  rw [ofConfig, List.append_assoc]
  apply neverBefore_append
  · apply makes_of_mem_directLines
    intro direct c hc
    rcases mem_directChanges.mp hc with ⟨x, -, rfl⟩ | ⟨x, -, rfl⟩ | ⟨x, -, rfl⟩ <;> rfl
  · intro line hline
    rcases List.mem_append.mp hline with hline | hline
    · exact makes_of_mem_zoneLines (fun c hc => by simp [Change.isDirect, hc]) line hline
    · exact makes_of_mem_reload line hline

theorem neverBefore_block {p q : Change → Bool} {options : Options} {banner : String}
    {first later : List Change} {front rest : List Line}
    (hfront : ∀ line ∈ front, line.makes p = false) (hrest : ∀ line ∈ rest, line.makes q = false)
    (hfirst : ∀ c ∈ first, p c = false) (hlater : ∀ c ∈ later, q c = false) :
    NeverBefore p q (front ++ block options banner (first ++ later) ++ rest) := by
  rw [block_eq, List.flatMap_append, ← List.append_assoc, ← List.append_assoc, List.append_assoc]
  apply neverBefore_append
  · intro line hline
    rw [List.append_assoc, List.mem_append, List.mem_append] at hline
    rcases hline with hline | hline | hline
    · exact hfront line hline
    · exact makes_of_mem_header line hline
    · exact makes_of_mem_lines hfirst line hline
  · intro line hline
    rcases List.mem_append.mp hline with hline | hline
    · exact makes_of_mem_lines hlater line hline
    · exact hrest line hline

theorem chains_before_rules (options : Options) (config : Config) :
    NeverBefore Change.isRule Change.isChain (ofConfig options .apply config) := by
  have zones : ∀ line ∈ zoneLines options .apply config, line.makes Change.isRule = false :=
    makes_of_mem_zoneLines (by rintro (_ | _ | _ | _ | _) <;> simp [Change.isZone, Change.isRule])
  cases hd : config.direct with
  | none =>
    simp only [ofConfig, directLines, hd, Option.toList_none, List.flatMap_nil, List.append_nil]
    exact neverBefore_append zones makes_of_mem_reload
  | some direct =>
    simp only [ofConfig, directLines, hd, Option.toList_some, List.flatMap_singleton, directChanges,
      List.append_assoc (List.map _ _)]
    apply neverBefore_block zones makes_of_mem_reload
    · simp [Change.isRule]
    · simp [Change.isChain, or_imp, forall_and]

theorem rules_before_chains (options : Options) (config : Config) :
    NeverBefore Change.isChain Change.isRule (ofConfig options .remove config) := by
  have rest : ∀ line ∈ zoneLines options .remove config ++
      (if options.transient then [] else [Line.reload]), line.makes Change.isRule = false := by
    intro line hline
    rcases List.mem_append.mp hline with hline | hline
    · exact makes_of_mem_zoneLines
        (by rintro (_ | _ | _ | _ | _) <;> simp [Change.isZone, Change.isRule]) line hline
    · exact makes_of_mem_reload line hline
  cases hd : config.direct with
  | none =>
    simp only [ofConfig, directLines, hd, Option.toList_none, List.flatMap_nil, List.nil_append]
    rw [← List.nil_append (_ ++ _)]
    exact neverBefore_append (by simp) rest
  | some direct =>
    simp only [ofConfig, directLines, hd, Option.toList_some, List.flatMap_singleton, directChanges]
    rw [List.append_assoc, ← List.nil_append (block _ _ _)]
    apply neverBefore_block (by simp) rest
    · simp [Change.isChain, or_imp, forall_and]
    · simp [Change.isRule]

/-- When a chain is removed, no rule is left in it. -/
theorem no_rule_in_removed_chain {options : Options} {config : Config} {before after : List Line}
    {permanent : Bool} {chain : DirectChain}
    (h : ofConfig options .remove config =
      before ++ .command permanent (.chain .remove chain) :: after)
    (copy : Bool) (priority : Int) (args : String) :
    .rule chain.ipv chain.table chain.chain priority args ∉
      (((Firewall.clean.run (ofConfig options .apply config)).run before).copy copy).items := by
  have hclean : Firewall.clean.copy copy = Store.clean := by cases copy <;> rfl
  have hback : ∀ c ∈ changesOf copy before, c.Goes .remove := by
    intro c hc
    have hall : c ∈ changesOf copy (ofConfig options .remove config) := by
      rw [h, changesOf_append]
      exact List.mem_append_left _ hc
    exact changesOf_goes options hall
  rw [Firewall.copy_run, Firewall.copy_run, hclean, Store.mem_run_of_remove hback,
    Store.mem_run_of_add fun _ => changesOf_goes options]
  simp only [Store.clean, Finset.notMem_empty, or_false]
  rintro ⟨hnot, c, hc, hitem⟩
  -- the line that removes the rule is there, and it cannot stand behind that of a chain
  have hundo := mem_changesOf.mp (undo_mem_changesOf hc)
  have horder := rules_before_chains options config
  rw [h, NeverBefore, List.pairwise_append, List.pairwise_cons] at horder
  have hrule : c.undo.isRule = true := by cases c <;> simp_all [Change.item?, Change.undo, Change.isRule]
  rw [h, List.mem_append, List.mem_cons] at hundo
  rcases hundo with hundo | hundo | hundo
  · exact hnot _ (mem_changesOf.mpr hundo) (by rw [Change.item?_undo, hitem])
  · rw [(Line.command.inj hundo).2] at hrule
    simp [Change.isRule] at hrule
  · exact horder.2.1.1 _ hundo ⟨rfl, hrule⟩

/-- **Taking back.** The script that removes a configuration undoes the one that applies it. While it
runs, no chain goes as long as there is a rule in it, and no zone is touched before everything direct
is gone; when a configuration is applied, no chain is made after a rule. -/
theorem remove_undoes_apply (options : Options) (config : Config) :
    let apply := ofConfig options .apply config
    let remove := ofConfig options .remove config
    (Firewall.clean.run apply).run remove = .clean ∧
      (∀ before permanent chain after,
        remove = before ++ .command permanent (.chain .remove chain) :: after →
          ∀ copy priority args, .rule chain.ipv chain.table chain.chain priority args ∉
            (((Firewall.clean.run apply).run before).copy copy).items) ∧
      NeverBefore Change.isZone Change.isDirect remove ∧
      NeverBefore Change.isRule Change.isChain apply :=
  ⟨run_remove_run_apply options config, fun _ _ _ _ h => no_rule_in_removed_chain h,
    direct_before_zones options config, chains_before_rules options config⟩

/-- The running copy of a chain goes last, when its rule is gone from both configurations. -/
theorem remove_undoes_apply_transient :
    let chain : DirectChain := ⟨"ipv4", "filter", "X"⟩
    let rule : DirectRule := { ipv := "ipv4", table := "filter", chain := "X", args := "-j DROP" }
    let config : Config := { direct := some { chains := [chain, chain], rules := [rule] } }
    let options : Options := { transient := true, banners := false }
    let before : List Line := [.command true (.rule .remove rule), .command false (.rule .remove rule),
      .command true (.chain .remove chain)]
    ofConfig options .remove config = before ++ [.command false (.chain .remove chain)] ∧
      ∀ copy, .rule "ipv4" "filter" "X" 0 "-j DROP" ∉
        (((Firewall.clean.run (ofConfig options .apply config)).run before).copy copy).items := by
  intro chain rule config options before
  have h : ofConfig options .remove config = before ++ [.command false (.chain .remove chain)] := by
    decide
  exact ⟨h, fun copy => (remove_undoes_apply options config).2.1 before false chain [] h copy 0 _⟩

end ZoneScript.Script
