import ZoneScript.Script.Command
import ZoneScript.Text.Space

/-!
# Calls

The words of a line as a call of the firewall's command: the flags with their values, the words that are
no flags, and, for the direct interface, what stands behind the flag that says what to do. A command
that lends its privileges may stand in front.
-/

namespace ZoneScript.Script

/-! ## Finding the command -/

/-- The commands that run another one with more privileges. -/
def privilegeCommands : List String := ["sudo", "doas", "pkexec"]

/-- Their options that take the next word as a value. -/
def valuedOptions : List String := ["-u", "-g", "-C", "-U", "-p"]

/-- The words behind the commands that lend privileges and their options. After such a command,
`inside` holds; `skip` says that the next word is the value of an option. -/
def dropPrivilege (inside skip : Bool) : List String → List String
  | [] => []
  | word :: rest =>
    if skip then dropPrivilege inside false rest
    else if privilegeCommands.contains word then dropPrivilege true false rest
    else if inside && word.toList.head? == some '-' then
      dropPrivilege true (valuedOptions.contains word) rest
    else word :: rest

/-- The words from the command on. -/
def commandWords (words : List String) : List String :=
  dropPrivilege false false words

/-- Whether a word runs the firewall's command, by its name or by a path to it. -/
def isCommand (word : String) : Bool :=
  (Text.pieces (· == '/') word.toList).getLast? == some commandName.toList

/-- Whether the words run the firewall's command. -/
def runsCommand (words : List String) : Bool :=
  ((commandWords words).head?.map isCommand).getD false

/-! ## References to shell variables -/

def isVariableStart (c : Char) : Bool :=
  c.isAlpha || c == '_'

def isVariableChar (c : Char) : Bool :=
  c.isAlphanum || c == '_'

/-- What a shell would put a value in for, at the start of a text: `$x`, `${x}` or `$(x)`. -/
def referenceAt? : List Char → Option (List Char)
  | '$' :: c :: cs =>
    let enclosed (close : Char) :=
      (Text.splitFirst close cs).map fun (inner, _) => '$' :: c :: (inner ++ [close])
    if c == '\x7b' then enclosed '\x7d'
    else if c == '(' then enclosed ')'
    else if isVariableStart c then some ('$' :: c :: cs.takeWhile isVariableChar)
    else none
  | _ => none

/-- The first such reference in a text. -/
def reference? : List Char → Option (List Char)
  | [] => none
  | c :: cs => (referenceAt? (c :: cs)).or (reference? cs)

/-! ## Flags -/

/-- A flag with the value behind its equals sign. -/
structure Flag where
  name : String
  value : Option String := none
  deriving DecidableEq, Repr, Inhabited

/-- A flag as a word writes it; other words are none. -/
def Flag.ofWord? (word : String) : Option Flag :=
  (Text.dropHead? ['-', '-'] word.toList).map fun body =>
    match Text.splitFirst '=' body with
    | some (name, value) => ⟨.ofList name, some (.ofList value)⟩
    | none => ⟨.ofList body, none⟩

/-- What a call does to the direct interface. -/
inductive DirectKind where
  | chain
  | rule
  | passthrough
  deriving DecidableEq, Repr, Inhabited

namespace DirectKind

def all : List DirectKind :=
  [.chain, .rule, .passthrough]

def name : DirectKind → String
  | .chain => "chain"
  | .rule => "rule"
  | .passthrough => "passthrough"

def naming : Naming DirectKind := { all, name }

end DirectKind

/-- A flag's name without the verb in front. -/
def afterVerb? (name : String) : Option String :=
  ((Text.dropHead? "add-".toList name.toList).or (Text.dropHead? "remove-".toList name.toList)).map
    String.ofList

/-- What a flag with a verb does to the direct interface. -/
def directKind? (name : String) : Option DirectKind :=
  (afterVerb? name).bind DirectKind.naming.find?

/-- A change through the direct interface: the flag that asks for it, and the words behind. -/
structure DirectCall where
  flag : String
  kind : DirectKind
  words : List String
  deriving DecidableEq, Repr, Inhabited

/-- A call of the firewall's command. -/
structure Call where
  flags : List Flag := []
  words : List String := []
  direct : Option DirectCall := none
  deriving DecidableEq, Repr, Inhabited

namespace Call

def addFlag (call : Call) (flag : Flag) : Call :=
  { call with flags := flag :: call.flags }

def addWord (call : Call) (word : String) : Call :=
  { call with words := word :: call.words }

/-- The call that the words behind the command write. Where the change is made, and for how long, is
left out. Once `--direct` was seen, a flag with a verb takes all that follows. With `skip`, the next
word is the value of a flag. -/
def ofWords (direct skip : Bool) : List String → Call
  | [] => {}
  | word :: rest =>
    if skip then ofWords direct false rest
    else match Flag.ofWord? word with
      | none => (ofWords direct false rest).addWord word
      | some flag =>
        if flag.name == "permanent" then ofWords direct false rest
        else if flag.name == "timeout" then ofWords direct flag.value.isNone rest
        else match if direct then directKind? flag.name else none with
          | some kind => { direct := some ⟨flag.name, kind, rest⟩ }
          | none => (ofWords (direct || flag.name == "direct") false rest).addFlag flag

/-- Whether there is a flag with such a name. -/
def hasFlag (call : Call) (p : String → Bool) : Bool :=
  call.flags.any fun flag => p flag.name

def isDirect (call : Call) : Bool :=
  call.hasFlag (· == "direct")

/-- Whether the call only makes the firewall read its configuration again. -/
def isReload (call : Call) : Bool :=
  call.hasFlag fun name => name == "reload" || name == "complete-reload"

/-- The flags that ask something or change no entry. -/
def queryFlags : List String :=
  ["state", "version", "help", "runtime-to-permanent", "check-config"]

def queryHeads : List String :=
  ["get-", "list-", "query-", "info-"]

/-- Whether the call only asks something. -/
def isQuery (call : Call) : Bool :=
  call.hasFlag fun name =>
    queryFlags.contains name || queryHeads.any fun head => Text.startsWith head.toList name.toList

end Call

end ZoneScript.Script
