import ZoneScript.CommandLine.Run

/-!
# The program

Connects the command line with the files and streams of the system.
-/

namespace ZoneScript.CommandLine

/-- The message of a failure of the system. -/
def failureText (e : IO.Error) : String :=
  let withCode (text : String) (code : UInt32) := text ++ " (os error " ++ toString code ++ ")"
  match e with
  | .noFileOrDirectory _ code details => withCode details code
  | .permissionDenied _ code details => withCode details code
  | .inappropriateType _ code details => withCode details code
  | .resourceExhausted _ code details => withCode details code
  | .noSuchThing _ code details => withCode details code
  | .alreadyExists _ code details => withCode details code
  | .userError text => text
  | other => toString other

/-- A step that can fail, as a step of a run. -/
def attempt {α : Type} (action : IO α) : Run IO α :=
  ExceptT.mk do
    match ← action.toBaseIO with
    | .ok value => return .ok value
    | .error e => return .error (failureText e)

/-- Where the settings are kept: below the directory that the user has chosen for settings, or the
usual one. -/
def findSettingsPath : IO (Option String) := do
  let chosen ← IO.getEnv "XDG_CONFIG_HOME"
  let home ← IO.getEnv "HOME"
  let directory := (chosen.filter fun d => d.toList.head? == some '/').or
    ((home.filter fun d => !d.isEmpty).map (· ++ "/.config"))
  return directory.map (· ++ "/dfwc/config.json")

/-- The directory of a file. -/
def directoryOf (path : String) : String :=
  match (Text.pieces (· == '/') path.toList).dropLast with
  | [] => "."
  | [[]] => "/"
  | parts => .ofList (Text.joinWith ['/'] parts)

/-- Writes a file beside the old one and puts it in its place. -/
def replaceFile (path text : String) : IO Unit := do
  let beside := path ++ ".tmp"
  IO.FS.writeFile beside text
  IO.FS.rename beside path

/-- The system as a host. -/
def system (settingsPath : Option String) : Host IO where
  contents path := attempt (IO.FS.readFile path)
  input := attempt do (← IO.getStdin).readToEnd
  replace path text := attempt (replaceFile path text)
  save path text := attempt do
    IO.FS.createDirAll (directoryOf path)
    replaceFile path text
  settingsPath? := settingsPath
  print text := IO.print text
  printError text := IO.eprint text

end ZoneScript.CommandLine

open ZoneScript.CommandLine in
def main (arguments : List String) : IO UInt32 := do
  let host := system (← findSettingsPath)
  return (← host.run arguments).code
