import ZoneScript.Finding.Document
import ZoneScript.Script.Write
import ZoneScript.Template.Remark
import ZoneScript.Yaml.Document

/-!
# From a text to a script

A text is read as a document, the document is checked and taken as a configuration, and the
configuration is expanded. The first step that finds an error is the last one.
-/

namespace ZoneScript

/-- A literal configuration, the variables it was made with, and what could not be replaced. -/
structure Expansion where
  config : Config := {}
  vars : List (String × Variable) := []
  warnings : List Diagnostic := []
  deriving DecidableEq, Repr, Inhabited

def Expansion.ofConfig (config : Config) : Expansion :=
  ⟨config.expand, Template.resolve config.vars, config.expansionWarnings⟩

/-- What became of a text. There is an expansion exactly if there are no errors. -/
structure Compilation where
  errors : List Diagnostic := []
  warnings : List Diagnostic := []
  expansion : Option Expansion := none
  deriving DecidableEq, Repr, Inhabited

namespace Compilation

def isOk (c : Compilation) : Bool :=
  c.errors.isEmpty

/-- Compiles a document tree. -/
def ofDocument (document : Node) : Compilation :=
  let validation := Validation.ofDocument document
  if validation.isOk then
    match Config.ofDocument document with
    | .error failure => { errors := [failure.toDiagnostic], warnings := validation.warnings }
    | .ok config =>
      let expansion := Expansion.ofConfig config
      { warnings := validation.warnings ++ expansion.warnings, expansion := some expansion }
  else { errors := validation.errors, warnings := validation.warnings }

/-- Compiles a text. -/
def ofText (text : String) : Compilation :=
  match Yaml.load text with
  | .error failure => { errors := [failure.toDiagnostic] }
  | .ok document => ofDocument document

/-- The lines of the script; without an expansion there are none. -/
def lines (c : Compilation) (options : Script.Options) (direction : Direction) : List String :=
  match c.expansion with
  | some expansion => Script.lines options direction expansion.config
  | none => []

end Compilation

end ZoneScript
