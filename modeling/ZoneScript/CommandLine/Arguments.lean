import ZoneScript.Settings
import ZoneScript.Text.Split

/-!
# Arguments

What a user asks for on the command line. Options may stand anywhere behind the name of the command;
their values follow as the next argument, behind an equals sign, or right behind a short name. Short
names may be put together. After two dashes nothing is an option.
-/

namespace ZoneScript.CommandLine

/-! ## Commands -/

/-- What is to be done. A file that is named `-` is the standard input. -/
inductive Command where
  | check (file : String)
  | expand (file : String) (format : Option OutputFormat)
  | generate (file : String) (direction : Direction) (transient noBanners script : Bool)
  | importScript (file : String) (existing output : Option String) (format : Option OutputFormat)
    (defaultZone : Option String)
  | config (write : Bool)
  deriving DecidableEq, Repr, Inhabited

/-- Why there is no command. -/
inductive Refusal where
  /-- The user asks for help. -/
  | help
  /-- The arguments make no sense. -/
  | usage
  deriving DecidableEq, Repr, Inhabited

abbrev Parsed := Except Refusal

/-! ## Options -/

inductive Opt where
  | verbose
  | help
  | format
  | remove
  | transient
  | noBanners
  | script
  | existing
  | output
  | defaultZone
  | write
  deriving DecidableEq, Repr, Inhabited

namespace Opt

def longName : Opt → String
  | .verbose => "verbose"
  | .help => "help"
  | .format => "format"
  | .remove => "remove"
  | .transient => "transient"
  | .noBanners => "no-banners"
  | .script => "script"
  | .existing => "merge"
  | .output => "output"
  | .defaultZone => "default-zone"
  | .write => "write"

def shortName? : Opt → Option Char
  | .verbose => some 'v'
  | .help => some 'h'
  | .format => some 'f'
  | .existing => some 'm'
  | .output => some 'o'
  | _ => none

/-- Whether the option takes a value. -/
def isValued : Opt → Bool
  | .format | .existing | .output | .defaultZone => true
  | _ => false

/-- Whether a value fits the option. -/
def accepts (value : String) : Opt → Bool
  | .format => (OutputFormat.ofName? value).isSome
  | .existing | .output => !value.isEmpty
  | _ => true

end Opt

/-- The names of the commands, each with the options it knows. -/
inductive CommandName where
  | check
  | expand
  | generate
  | importScript
  | config
  deriving DecidableEq, Repr, Inhabited

namespace CommandName

def all : List CommandName :=
  [.check, .expand, .generate, .importScript, .config]

def name : CommandName → String
  | .check => "check"
  | .expand => "expand"
  | .generate => "generate"
  | .importScript => "import"
  | .config => "config"

def naming : Naming CommandName := { all, name }

abbrev ofName? : String → Option CommandName := naming.find?

/-- The options that every command knows. -/
def commonOptions : List Opt :=
  [.verbose, .help]

def options : CommandName → List Opt
  | .check => commonOptions
  | .expand => .format :: commonOptions
  | .generate => [.remove, .transient, .noBanners, .script] ++ commonOptions
  | .importScript => [.existing, .output, .format, .defaultZone] ++ commonOptions
  | .config => .write :: commonOptions

/-- How many words may follow that are no options. -/
def maxWords : CommandName → Nat
  | .config => 0
  | _ => 1

end CommandName

/-! ## Reading -/

/-- The options and words that were read. -/
structure Given where
  options : List (Opt × String) := []
  words : List String := []
  deriving DecidableEq, Repr, Inhabited

namespace Given

/-- Adds an option. Only the verbosity may be asked for again; help is given at once. -/
def add (given : Given) (opt : Opt) (value : String) : Parsed Given :=
  if opt == .help then .error .help
  else if !opt.accepts value then .error .usage
  else if opt != .verbose && given.options.any (·.1 == opt) then .error .usage
  else .ok { given with options := given.options ++ [(opt, value)] }

def has (given : Given) (opt : Opt) : Bool :=
  given.options.any (·.1 == opt)

def value? (given : Given) (opt : Opt) : Option String :=
  given.options.lookup opt

end Given

/-- What an argument leaves open: the option that waits for its value. -/
abbrev Progress := Given × Option Opt

/-- An option by its long name, with a value behind an equals sign. -/
def readLong (known : List Opt) (given : Given) (body : List Char) : Parsed Progress :=
  let (name, value) := match Text.splitFirst '=' body with
    | some (name, value) => (name, some (String.ofList value))
    | none => (body, none)
  match known.find? (·.longName.toList == name), value with
  | none, _ => .error .usage
  | some opt, some value =>
    if opt.isValued then (given.add opt value).map (·, none) else .error .usage
  | some opt, none =>
    if opt.isValued then .ok (given, some opt) else (given.add opt "").map (·, none)

/-- Options by their short names, put together. What follows one that takes a value is its value. -/
def readShort (known : List Opt) : Given → List Char → Parsed Progress
  | given, [] => .ok (given, none)
  | given, c :: rest =>
    match known.find? (·.shortName? == some c) with
    | none => .error .usage
    | some opt =>
      if opt.isValued then
        match rest with
        | [] => .ok (given, some opt)
        | '=' :: value => (given.add opt (.ofList value)).map (·, none)
        | value => (given.add opt (.ofList value)).map (·, none)
      else (given.add opt "").bind fun given => readShort known given rest

/-- The arguments of a command. `pending` waits for its value; with `literal`, no argument is an
option any more. -/
def readArguments (known : List Opt) (maxWords : Nat) :
    Given → Option Opt → Bool → List String → Parsed Given
  | given, none, _, [] => .ok given
  | _, some _, _, [] => .error .usage
  | given, pending, literal, argument :: rest =>
    let isWord := match argument.toList with
      | ['-'] => true
      | '-' :: _ => false
      | _ => true
    match pending, literal || isWord with
    | some opt, true =>
      (given.add opt argument).bind fun given => readArguments known maxWords given none literal rest
    | some _, false => .error .usage
    | none, true =>
      if given.words.length < maxWords then
        readArguments known maxWords { given with words := given.words ++ [argument] } none literal
          rest
      else .error .usage
    | none, false =>
      match argument.toList with
      | ['-', '-'] => readArguments known maxWords given none true rest
      | '-' :: '-' :: body =>
        (readLong known given body).bind fun (given, pending) =>
          readArguments known maxWords given pending false rest
      | body =>
        (readShort known given (body.drop 1)).bind fun (given, pending) =>
          readArguments known maxWords given pending false rest

/-- The command that a name and its arguments ask for. -/
def commandOf (name : CommandName) (given : Given) : Parsed Command :=
  let file? := given.words.head?
  let format := (given.value? .format).bind OutputFormat.ofName?
  match name, file? with
  | .check, some file => .ok (.check file)
  | .expand, some file => .ok (.expand file format)
  | .generate, some file =>
    .ok (.generate file (if given.has .remove then .remove else .apply) (given.has .transient)
      (given.has .noBanners) (given.has .script))
  | .importScript, file? =>
    .ok (.importScript (file?.getD "-") (given.value? .existing) (given.value? .output) format
      (given.value? .defaultZone))
  | .config, _ => .ok (.config (given.has .write))
  | _, none => .error .usage

/-- The command that the arguments ask for. In front of its name only common options may stand. -/
def parse : List String → Parsed Command
  | [] => .error .usage
  | argument :: rest =>
    match argument.toList with
    | '-' :: c :: cs =>
      let read : Parsed Progress := match c, cs with
        | '-', [] => .error .usage
        | '-', body => readLong CommandName.commonOptions {} body
        | c, cs => readShort CommandName.commonOptions {} (c :: cs)
      read.bind fun _ => parse rest
    | _ =>
      match CommandName.ofName? argument with
      | some name =>
        (readArguments name.options name.maxWords {} none false rest).bind (commandOf name)
      | none => .error (if argument == "help" then .help else .usage)

end ZoneScript.CommandLine
