import ZoneScript.Proofs.ReadBack
import ZoneScript.Proofs.Store

/-!
# The words of a command

Each thing that a configuration says is one change, and each change is one command. Whatever characters
a name or a value holds, a shell reads it as one word, so no value can add a word of its own.
-/

namespace ZoneScript.Script

open Shell

/-- The target that a script in this direction gives a zone. -/
def targetValue (direction : Direction) (target : String) : String :=
  match direction with
  | .apply => target
  | .remove => ZoneTarget.standard.name

/-- The changes that a configuration asks for: one for each target, toggle, item, chain, rule and
passthrough. -/
inductive Asks (direction : Direction) (config : Config) : Change → Prop
  | target {name : String} {zone : Zone} {target : String} (hzone : (name, zone) ∈ config.zones)
      (htarget : zone.target = some target) :
      Asks direction config (.target name (targetValue direction target))
  | toggle {name : String} {zone : Zone} {f : ZoneField} (hzone : (name, zone) ∈ config.zones)
      (hon : zone.toggle? f = some true) : Asks direction config (.entry direction.verb name f none)
  | value {name : String} {zone : Zone} {f : ZoneField} {items : List ValueItem} {item : ValueItem}
      (hzone : (name, zone) ∈ config.zones) (hitems : zone.values? f = some items)
      (hitem : item ∈ items) :
      Asks direction config (.entry direction.verb name f (some item.value))
  | port {name : String} {zone : Zone} {f : ZoneField} {items : List PortItem} {item : PortItem}
      (hzone : (name, zone) ∈ config.zones) (hitems : zone.ports? f = some items)
      (hitem : item ∈ items) :
      Asks direction config (.entry direction.verb name f (some item.spec))
  | forwardPort {name : String} {zone : Zone} {item : ForwardPort}
      (hzone : (name, zone) ∈ config.zones) (hitem : item ∈ zone.forwardPorts) :
      Asks direction config (.entry direction.verb name .forwardPorts (some item.spec))
  | richRule {name : String} {zone : Zone} {rule : RichRule} (hzone : (name, zone) ∈ config.zones)
      (hrule : rule ∈ zone.richRules) :
      Asks direction config (.entry direction.verb name .richRules (some rule.text))
  | chain {direct : Direct} {chain : DirectChain} (hdirect : config.direct = some direct)
      (hchain : chain ∈ direct.chains) : Asks direction config (.chain direction.verb chain)
  | rule {direct : Direct} {rule : DirectRule} (hdirect : config.direct = some direct)
      (hrule : rule ∈ direct.rules) : Asks direction config (.rule direction.verb rule)
  | passthrough {direct : Direct} {item : Passthrough} (hdirect : config.direct = some direct)
      (hitem : item ∈ direct.passthroughs) :
      Asks direction config (.passthrough direction.verb item)

section

variable {direction : Direction} {config : Config} {change : Change}

theorem asks_of_mem_fieldChanges {name : String} {zone : Zone} (hzone : (name, zone) ∈ config.zones)
    {f : ZoneField} (h : change ∈ fieldChanges direction.verb name zone f) :
    Asks direction config change := by
  rw [fieldChanges] at h
  cases hkind : f.kind with
  | target =>
    simp only [hkind, List.mem_map, Option.mem_toList] at h
    obtain ⟨target, htarget, rfl⟩ := h
    have hasked : Asks direction config _ := .target hzone htarget
    cases direction <;> exact hasked
  | toggle =>
    simp only [hkind] at h
    split at h
    · rename_i hon
      rw [List.mem_singleton.mp h]
      exact .toggle hzone hon
    · cases h
  | values =>
    cases hitems : zone.values? f with
    | none => simp [hkind, hitems] at h
    | some items =>
      simp only [hkind, hitems, Option.getD_some, List.mem_map] at h
      obtain ⟨item, hitem, rfl⟩ := h
      exact .value hzone hitems hitem
  | ports =>
    cases hitems : zone.ports? f with
    | none => simp [hkind, hitems] at h
    | some items =>
      simp only [hkind, hitems, Option.getD_some, List.mem_map] at h
      obtain ⟨item, hitem, rfl⟩ := h
      exact .port hzone hitems hitem
  | forwardPorts =>
    simp only [hkind, List.mem_map] at h
    obtain ⟨item, hitem, rfl⟩ := h
    obtain rfl : f = .forwardPorts := by cases f <;> simp_all [ZoneField.kind]
    exact .forwardPort hzone hitem
  | richRules =>
    simp only [hkind, List.mem_map] at h
    obtain ⟨rule, hrule, rfl⟩ := h
    obtain rfl : f = .richRules := by cases f <;> simp_all [ZoneField.kind]
    exact .richRule hzone hrule

theorem mem_allChanges : change ∈ allChanges direction config ↔ Asks direction config change := by
  have inZone {name : String} {zone : Zone} (hzone : (name, zone) ∈ config.zones) (f : ZoneField)
      (h : change ∈ fieldChanges direction.verb name zone f) :
      change ∈ allChanges direction config :=
    List.mem_append_left _ (List.mem_flatMap.mpr ⟨_, hzone, List.mem_flatMap.mpr ⟨f, f.mem_all, h⟩⟩)
  have inDirect {direct : Direct} (hdirect : config.direct = some direct)
      (h : change ∈ directChanges direction direct) : change ∈ allChanges direction config :=
    List.mem_append_right _ (List.mem_flatMap.mpr ⟨direct, Option.mem_toList.mpr hdirect, h⟩)
  constructor
  · intro h
    rcases List.mem_append.mp h with h | h
    · obtain ⟨⟨name, zone⟩, hzone, h⟩ := List.mem_flatMap.mp h
      obtain ⟨f, -, h⟩ := List.mem_flatMap.mp h
      exact asks_of_mem_fieldChanges hzone h
    · obtain ⟨direct, hdirect, h⟩ := List.mem_flatMap.mp h
      have hdirect := Option.mem_toList.mp hdirect
      rcases mem_directChanges.mp h with ⟨chain, hmem, rfl⟩ | ⟨rule, hmem, rfl⟩ | ⟨item, hmem, rfl⟩
      · exact .chain hdirect hmem
      · exact .rule hdirect hmem
      · exact .passthrough hdirect hmem
  · intro h
    cases h with
    | target hzone htarget =>
      refine inZone hzone .target ?_
      cases direction <;> simp [fieldChanges, ZoneField.kind, htarget, targetValue, Direction.verb]
    | @toggle name zone f hzone hon =>
      have hkind : f.kind = .toggle := by cases f <;> simp_all [Zone.toggle?, ZoneField.kind]
      exact inZone hzone f (by simp [fieldChanges, hkind, hon])
    | @value name zone f items item hzone hitems hitem =>
      have hkind : f.kind = .values := by simpa [hitems] using (zone.values?_isSome f).symm
      refine inZone hzone f ?_
      simp only [fieldChanges, hkind, hitems]
      exact List.mem_map_of_mem hitem
    | @port name zone f items item hzone hitems hitem =>
      have hkind : f.kind = .ports := by simpa [hitems] using (zone.ports?_isSome f).symm
      refine inZone hzone f ?_
      simp only [fieldChanges, hkind, hitems]
      exact List.mem_map_of_mem hitem
    | forwardPort hzone hitem => exact inZone hzone .forwardPorts (List.mem_map_of_mem hitem)
    | richRule hzone hrule => exact inZone hzone .richRules (List.mem_map_of_mem hrule)
    | chain hdirect hchain =>
      exact inDirect hdirect (mem_directChanges.mpr (.inl ⟨_, hchain, rfl⟩))
    | rule hdirect hrule =>
      exact inDirect hdirect (mem_directChanges.mpr (.inr (.inl ⟨_, hrule, rfl⟩)))
    | passthrough hdirect hitem =>
      exact inDirect hdirect (mem_directChanges.mpr (.inr (.inr ⟨_, hitem, rfl⟩)))

end

/-- **One word each.** A script has a command for each change that its configuration asks for, for the
permanent configuration and, if the change reaches it, for the running one. A shell reads the command as
its name, the flag of permanent commands, and the flags, names and values of the change character for
character; behind them stand the words that the arguments of a direct rule or passthrough are read as. -/
theorem split_command_of_asks (options : Options) (direction : Direction) (config : Config)
    (permanent : Bool) (change : Change) :
    (.command permanent change ∈ ofConfig options direction config ↔
        Asks direction config change ∧ Reaches options permanent change) ∧
      ∀ args, change.ArgsRead args →
        split (Line.command permanent change).text =
          .ok (commandName :: (permanentWords permanent ++ change.headWords ++ args)) :=
  ⟨by rw [command_mem_ofConfig, mem_allChanges], fun _ hargs => split_command permanent hargs⟩

/-- Quotes, a line feed, a hash and a backslash at the end stay in their words, and so does nothing. -/
theorem split_command_of_asks_quoted :
    let name := "it's; #1\n"
    let rule : DirectRule :=
      { ipv := "$(x)", table := "", chain := "a\\", priority := -5, args := "-j 'my chain'" }
    let zone : Zone := { services := [{ value := "" }] }
    let config : Config := { zones := [(name, zone)], direct := some { rules := [rule] } }
    let service : Change := .entry .remove name .services (some "")
    let options : Options := { transient := true }
    .command false service ∈ ofConfig options .remove config ∧
      split (Line.command false service).text =
        .ok ["firewall-cmd", "--zone=it's; #1\n", "--remove-service="] ∧
      .command true (.rule .remove rule) ∈ ofConfig options .remove config ∧
      split (Line.command true (.rule .remove rule)).text =
        .ok ["firewall-cmd", "--permanent", "--direct", "--remove-rule", "$(x)", "", "a\\", "-5", "-j",
          "my chain"] := by
  intro name rule zone config service options
  obtain ⟨hservice, hserviceWords⟩ := split_command_of_asks options .remove config false service
  obtain ⟨hrule, hruleWords⟩ := split_command_of_asks options .remove config true (.rule .remove rule)
  have hargs : (Change.rule .remove rule).ArgsRead ["-j", "my chain"] :=
    show split "-j 'my chain'" = .ok ["-j", "my chain"] by decide +kernel
  have hzone : (name, zone) ∈ config.zones := List.mem_cons_self
  refine ⟨hservice.mpr ⟨?_, .inr ⟨rfl, rfl⟩⟩, ?_, hrule.mpr ⟨?_, .inl rfl⟩, ?_⟩
  · exact Asks.value hzone (f := .services) rfl List.mem_cons_self
  · exact (hserviceWords [] rfl).trans (by decide +kernel)
  · exact .rule rfl List.mem_cons_self
  · exact (hruleWords _ hargs).trans (by decide +kernel)

end ZoneScript.Script
