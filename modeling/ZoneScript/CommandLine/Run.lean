import ZoneScript.CommandLine.Arguments
import ZoneScript.Compilation
import ZoneScript.Config.Encode
import ZoneScript.Yaml.Write

/-!
# Running a command

What each command does, over anything that can read files and write text. Findings go to the error
output, results to the standard output or to a file.
-/

namespace ZoneScript

/-- A configuration in a notation. -/
def Config.serialize (config : Config) : OutputFormat → String
  | .yaml => Yaml.render config.toDocument
  | .json => Json.render config.toDocument

namespace CommandLine

/-- A run that can stop with a message. -/
abbrev Run (m : Type → Type) := ExceptT String m

/-- What a run needs from outside. -/
structure Host (m : Type → Type) where
  /-- The text of a file. -/
  contents : String → Run m String
  /-- What is left of the standard input. -/
  input : Run m String
  /-- Replaces a file as a whole. -/
  replace : String → String → Run m Unit
  /-- Like `replace`, in a directory that is made if it is not there. -/
  save : String → String → Run m Unit
  /-- Where the settings are kept, if they can be kept anywhere. -/
  settingsPath? : Option String
  print : String → m Unit
  printError : String → m Unit

/-- How a run ends. -/
inductive Exit where
  | success
  | failure
  | usage
  deriving DecidableEq, Repr, Inhabited

def Exit.code : Exit → UInt32
  | .success => 0
  | .failure => 1
  | .usage => 2

variable {m : Type → Type} [Monad m]

namespace Host

def readSource (host : Host m) (file : String) : Run m String :=
  if file == "-" then host.input else host.contents file

/-- Writes a line for each finding. -/
def report (host : Host m) (label : String) (messages : List String) : m Unit :=
  messages.forM fun message => host.printError (label ++ ": " ++ message ++ "\n")

/-- The settings that were kept, or the standard ones if there are none that can be read. -/
def loadSettings (host : Host m) : m Settings :=
  match host.settingsPath? with
  | none => pure {}
  | some path => do
    match ← (host.contents path).run with
    | .ok text => return (Settings.ofText? text).getD {}
    | .error _ => return {}

/-- Compiles a file and reports what was found. -/
def compile (host : Host m) (file : String) : Run m Compilation := do
  let compilation := Compilation.ofText (← host.readSource file)
  host.report "warning" (compilation.warnings.map Diagnostic.display)
  host.report "error" (compilation.errors.map Diagnostic.display)
  return compilation

/-- Loads a configuration as it is written, so that its variables and loops stay. -/
def loadExisting (host : Host m) (file : String) : Run m Config := do
  let text ← (host.readSource file).adapt fun message => (Failure.io message).message
  let document ← match Yaml.load text with
    | .ok document => pure document
    | .error failure => throw failure.message
  let validation := Validation.ofDocument document
  host.report "warning" (validation.warnings.map Diagnostic.display)
  if !validation.isOk then
    host.report "error" (validation.errors.map Diagnostic.display)
    throw (file ++ " is not a valid config")
  match Config.ofDocument document with
  | .ok config => return config
  | .error failure => throw failure.message

/-! ## Commands -/

def check (host : Host m) (file : String) : Run m Exit := do
  let compilation ← host.compile file
  match compilation.expansion with
  | none => return .failure
  | some expansion =>
    host.print ("OK: " ++ toString expansion.config.zones.length ++ " zone(s), "
      ++ toString compilation.warnings.length ++ " warning(s)\n")
    return .success

def expand (host : Host m) (format : OutputFormat) (file : String) : Run m Exit := do
  match (← host.compile file).expansion with
  | none => return .failure
  | some expansion =>
    host.print (expansion.config.serialize format)
    return .success

def generate (host : Host m) (options : Script.Options) (direction : Direction) (header : Bool)
    (file : String) : Run m Exit := do
  let compilation ← host.compile file
  if !compilation.isOk then return .failure
  host.print (Script.scriptText header (compilation.lines options direction))
  return .success

/-- Imports a script. Lines that cannot be read make the run fail, but only after its work is done. -/
def importScript (host : Host m) (file defaultZone : String) (existing output : Option String)
    (format : OutputFormat) : Run m Exit := do
  let imported := Script.Import.ofText defaultZone (← host.readSource file)
  host.report "error" (imported.errors.map Script.FailedLine.display)
  let config ← match existing with
    | some path => pure ((← host.loadExisting path).merge imported.config)
    | none => pure imported.config
  let body := config.serialize format
  match output with
  | some path => host.replace path body
  | none => host.print body
  return if imported.errors.isEmpty then .success else .failure

def config (host : Host m) (settings : Settings) (write : Bool) : Run m Exit := do
  host.print (match host.settingsPath? with
    | some path => "# " ++ path ++ "\n"
    | none => "# no config directory available\n")
  host.print (settings.text ++ "\n")
  if write then
    if let some path := host.settingsPath? then
      (host.save path settings.text).adapt fun message => (Failure.io message).message
      host.printError ("Saved " ++ path ++ "\n")
  return .success

def runCommand (host : Host m) (settings : Settings) : Command → Run m Exit
  | .check file => host.check file
  | .expand file format => host.expand (format.getD settings.outputFormat) file
  | .generate file direction transient noBanners header =>
    host.generate ⟨transient || settings.transient, settings.banners && !noBanners⟩ direction header
      file
  | .importScript file existing output format defaultZone =>
    host.importScript file (defaultZone.getD settings.defaultZone) existing output
      (format.getD settings.outputFormat)
  | .config write => host.config settings write

def usage : String :=
  "Usage: zonescript [-v]... check|expand|generate|import|config [OPTIONS] [FILE]\n"

/-- Runs the program with these arguments. -/
def run (host : Host m) (arguments : List String) : m Exit :=
  match parse arguments with
  | .error .help => do
    host.print usage
    return .success
  | .error .usage => do
    host.printError usage
    return .usage
  | .ok command => do
    match ← (host.runCommand (← host.loadSettings) command).run with
    | .ok exit => return exit
    | .error message =>
      host.printError ("Error: " ++ message ++ "\n")
      return .failure

end Host

end CommandLine

end ZoneScript
