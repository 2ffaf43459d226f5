import ZoneScript.Address
import ZoneScript.Text.Truncate
import ZoneScript.Vocabulary

/-!
# Checks of single values

What a port, a range of ports, a protocol, an interface name, an address or a log label must look like.
The firewall has the last word, so a value that fails a check is reported and still used.
-/

namespace ZoneScript

open Text

/-- What is the matter with a value. -/
inductive LexicalError where
  | portRange
  | portOrder
  | notPort (text : String)
  | unknownProtocol (text : String)
  | emptyInterface
  | longInterface
  | reservedInterface
  | interfaceCharacters
  | unnamedSet
  | notAddress (text : String)
  | emptyLabel
  | longLabel
  | labelCharacters
  | unrecognized (what text : String)
  deriving DecidableEq, Repr, Inhabited

def LexicalError.message : LexicalError → String
  | .portRange => "Port must be between 1 and 65535"
  | .portOrder => "Start port must be less than or equal to end port"
  | .notPort text => "'" ++ text ++ "' is not a port number"
  | .unknownProtocol text => "Unknown port protocol '" ++ text ++ "'"
  | .emptyInterface => "Interface name cannot be empty"
  | .longInterface => "Interface name too long (max 15 characters)"
  | .reservedInterface => "Invalid interface name"
  | .interfaceCharacters => "Interface name contains invalid characters"
  | .unnamedSet => "ipset reference has no name"
  | .notAddress text => "'" ++ text ++ "' is not an IP address, network, MAC or ipset"
  | .emptyLabel => "Log prefix cannot be empty"
  | .longLabel => "Log prefix too long (max 127 chars)"
  | .labelCharacters => "Log prefix contains control characters or quotes"
  | .unrecognized what text => "unrecognized " ++ what ++ " '" ++ text ++ "'"

namespace Lexical

abbrev Result := Except LexicalError

/-! ## Ports -/

/-- Port zero is no port. -/
def port (n : Nat) : Result Nat :=
  if n = 0 then .error .portRange else .ok n

/-- A range of ports that does not run backwards. -/
def portRange (first last : Nat) : Result (Nat × Nat) := do
  let _ ← port first
  let _ ← port last
  if last < first then .error .portOrder else .ok (first, last)

/-- A number of 16 bits, with white space around it. -/
def portNumber (cs : List Char) : Result Nat :=
  match readUnsigned? 16 (trim cs) with
  | some n => .ok n
  | none => .error (.notPort (.ofList cs))

/-- A port, or two with a dash between them. -/
def portSpec (text : String) : Result (Nat × Nat) :=
  match splitFirst '-' text.toList with
  | some (first, last) => do
    let first ← portNumber first
    let last ← portNumber last
    portRange first last
  | none => do
    let n ← port (← portNumber text.toList)
    return (n, n)

def protocol (text : String) : Result PortProtocol :=
  match PortProtocol.ofName? text with
  | some p => .ok p
  | none => .error (.unknownProtocol text)

/-- A port with its protocol, which may be left out. -/
def portWithProtocol (text : String) : Result Unit := do
  let (port, name) := match splitFirst '/' text.toList with
    | some (port, name) => (String.ofList port, String.ofList name)
    | none => (text, PortProtocol.standard.name)
  let _ ← portSpec port
  let _ ← protocol name

/-! ## Names, addresses and labels -/

def isInterfaceChar (c : Char) : Bool :=
  c.isAlphanum || c == '.' || c == '-' || c == '_'

/-- A name of an interface. A plus sign at its end stands for any ending. -/
def interface (text : String) : Result Unit :=
  let stem := (dropTail? ['+'] text.toList).getD text.toList
  if text.isEmpty then .error .emptyInterface
  else if 15 < byteLength stem then .error .longInterface
  else if stem == ['.'] || stem == ['.', '.'] then .error .reservedInterface
  else if stem.all isInterfaceChar then .ok ()
  else .error .interfaceCharacters

/-- An address of a host, a network or a network card, or a reference to a set of addresses. -/
def address (text : String) : Result Unit :=
  match dropHead? "ipset:".toList text.toList with
  | some set => if set.isEmpty then .error .unnamedSet else .ok ()
  | none =>
    if Address.isHardware text.toList || Address.isNetwork text.toList then .ok ()
    else .error (.notAddress text)

/-- Control characters are those of the two blocks that Unicode sets aside for them. -/
def isControl (c : Char) : Bool :=
  c.toNat < 0x20 || (0x7F ≤ c.toNat && c.toNat < 0xA0)

/-- What a log line starts with. -/
def logLabel (text : String) : Result Unit :=
  if text.isEmpty then .error .emptyLabel
  else if 127 < byteLength text.toList then .error .longLabel
  else if text.toList.any fun c => isControl c || c == '"' then .error .labelCharacters
  else .ok ()

/-! ## Words -/

/-- A word of a closed set, of which messages speak as `what`. -/
def word {α : Type} (what : String) (find : String → Option α) (text : String) : Result Unit :=
  match find text with
  | some _ => .ok ()
  | none => .error (.unrecognized what text)

def target : String → Result Unit := word "zone target" ZoneTarget.ofName?
def family : String → Result Unit := word "rich rule family" Family.ofName?
def action : String → Result Unit := word "rich rule action" RuleAction.ofName?
def logLevel : String → Result Unit := word "log level" LogLevel.ofName?
def directFamily : String → Result Unit := word "direct ipv" DirectFamily.ofName?

end Lexical

end ZoneScript
