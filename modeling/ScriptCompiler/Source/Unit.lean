import ScriptCompiler.Source.Node

/-!
# Compilation units

What the analyser hands over: the statements of one file with the results of the analysis.
-/

namespace ScriptCompiler

/-- A module that a unit imports. -/
structure Import where
  /-- The name of the module, which also begins the symbols of its exports. -/
  module : String
  /-- The file that was found for it. -/
  path : Option String
deriving DecidableEq

/-- One file to compile. -/
structure SourceUnit where
  /-- Statements in the order of the text. -/
  statements : List Node
  /-- Variables whose history the program asks about. -/
  observed : List String := []
  /-- Imports that were resolved, in the order of the text. -/
  imports : List Import := []
  /-- The name of the module, when the unit is one. -/
  module : Option String := none

/-- The names of imported modules in the order of first occurrence: the resolved ones, then those of
the import statements at top level. -/
def SourceUnit.importedModules (u : SourceUnit) : List String :=
  let named := u.statements.filterMap fun
    | .importModule module => some module
    | _ => none
  Text.addNew [] (u.imports.map (·.module) ++ named)

end ScriptCompiler
