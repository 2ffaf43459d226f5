/-!
# Words with a fixed meaning

The closed sets of words that a firewall description uses: targets, families, actions, protocols,
log levels and verbs. Each type lists its values and names them; a value is found by its name.
-/

namespace ZoneScript

/-! ## Naming values -/

/-- Names for the values of a type. All values are listed, and no two have the same name. -/
structure Naming (α : Type) where
  all : List α
  name : α → String
  mem_all : ∀ x, x ∈ all := by intro x; cases x <;> decide
  distinct : (all.map name).Nodup := by decide

namespace Naming

variable {α : Type} (naming : Naming α)

/-- The value with this name; names are matched exactly. -/
def find? (text : String) : Option α :=
  naming.all.find? (naming.name · == text)

theorem name_of_find? {text : String} {x : α} (h : naming.find? text = some x) : naming.name x = text := by
  have hfound := List.find?_some h
  exact beq_iff_eq.mp hfound

theorem find?_of_nodup {name : α → String} {all : List α} (distinct : (all.map name).Nodup) {x : α}
    (hx : x ∈ all) : all.find? (name · == name x) = some x := by
  induction all with
  | nil => cases hx
  | cons y all ih =>
    rw [List.map_cons, List.nodup_cons] at distinct
    rcases List.mem_cons.mp hx with rfl | hx
    · simp
    · have hne : name y ≠ name x := fun heq => distinct.1 (heq ▸ List.mem_map_of_mem hx)
      rw [List.find?_cons_of_neg (by simpa using hne)]
      exact ih distinct.2 hx

theorem find?_name (x : α) : naming.find? (naming.name x) = some x :=
  find?_of_nodup naming.distinct (naming.mem_all x)

end Naming

/-! ## The words -/

/-- What a zone does with a packet that no rule decides. -/
inductive ZoneTarget where
  | standard
  | accept
  | drop
  | reject
  deriving DecidableEq, Repr, Inhabited

namespace ZoneTarget

def all : List ZoneTarget :=
  [.standard, .accept, .drop, .reject]

def name : ZoneTarget → String
  | .standard => "default"
  | .accept => "ACCEPT"
  | .drop => "DROP"
  | .reject => "REJECT"

def naming : Naming ZoneTarget := { all, name }

abbrev ofName? : String → Option ZoneTarget := naming.find?

end ZoneTarget

/-- The address family of a rich rule. -/
inductive Family where
  | ipv4
  | ipv6
  deriving DecidableEq, Repr, Inhabited

namespace Family

def all : List Family :=
  [.ipv4, .ipv6]

def name : Family → String
  | .ipv4 => "ipv4"
  | .ipv6 => "ipv6"

def naming : Naming Family := { all, name }

abbrev ofName? : String → Option Family := naming.find?

end Family

/-- The family of a direct chain, rule or passthrough; `eb` stands for Ethernet bridges. -/
inductive DirectFamily where
  | ipv4
  | ipv6
  | eb
  deriving DecidableEq, Repr, Inhabited

namespace DirectFamily

def all : List DirectFamily :=
  [.ipv4, .ipv6, .eb]

def name : DirectFamily → String
  | .ipv4 => "ipv4"
  | .ipv6 => "ipv6"
  | .eb => "eb"

def naming : Naming DirectFamily := { all, name }

abbrev ofName? : String → Option DirectFamily := naming.find?

/-- The address that matches every host of the family. Bridges have none. -/
def anyAddress? : DirectFamily → Option String
  | .ipv4 => some "0.0.0.0/0"
  | .ipv6 => some "::/0"
  | .eb => none

end DirectFamily

/-- What a rich rule does with a packet. -/
inductive RuleAction where
  | accept
  | drop
  | reject
  | mark
  deriving DecidableEq, Repr, Inhabited

namespace RuleAction

def all : List RuleAction :=
  [.accept, .drop, .reject, .mark]

def name : RuleAction → String
  | .accept => "accept"
  | .drop => "drop"
  | .reject => "reject"
  | .mark => "mark"

def naming : Naming RuleAction := { all, name }

abbrev ofName? : String → Option RuleAction := naming.find?

end RuleAction

/-- The transport protocols that have ports. -/
inductive PortProtocol where
  | tcp
  | udp
  | sctp
  | dccp
  deriving DecidableEq, Repr, Inhabited

namespace PortProtocol

def all : List PortProtocol :=
  [.tcp, .udp, .sctp, .dccp]

def name : PortProtocol → String
  | .tcp => "tcp"
  | .udp => "udp"
  | .sctp => "sctp"
  | .dccp => "dccp"

def naming : Naming PortProtocol := { all, name }

abbrev ofName? : String → Option PortProtocol := naming.find?

/-- The protocol of a port that names none. -/
def standard : PortProtocol := .tcp

end PortProtocol

/-- How urgent a logged packet is. -/
inductive LogLevel where
  | emerg
  | alert
  | crit
  | error
  | warning
  | notice
  | info
  | debug
  deriving DecidableEq, Repr, Inhabited

namespace LogLevel

def all : List LogLevel :=
  [.emerg, .alert, .crit, .error, .warning, .notice, .info, .debug]

def name : LogLevel → String
  | .emerg => "emerg"
  | .alert => "alert"
  | .crit => "crit"
  | .error => "error"
  | .warning => "warning"
  | .notice => "notice"
  | .info => "info"
  | .debug => "debug"

def naming : Naming LogLevel := { all, name }

abbrev ofName? : String → Option LogLevel := naming.find?

end LogLevel

/-- What a command does with an entry. -/
inductive Verb where
  | add
  | remove
  deriving DecidableEq, Repr, Inhabited

namespace Verb

def all : List Verb :=
  [.add, .remove]

def name : Verb → String
  | .add => "add"
  | .remove => "remove"

def naming : Naming Verb := { all, name }

abbrev ofName? : String → Option Verb := naming.find?

end Verb

/-- Which way a script moves the firewall. -/
inductive Direction where
  | apply
  | remove
  deriving DecidableEq, Repr, Inhabited

namespace Direction

def all : List Direction :=
  [.apply, .remove]

def name : Direction → String
  | .apply => "apply"
  | .remove => "remove"

def naming : Naming Direction := { all, name }

abbrev ofName? : String → Option Direction := naming.find?

def verb : Direction → Verb
  | .apply => .add
  | .remove => .remove

end Direction

end ZoneScript
