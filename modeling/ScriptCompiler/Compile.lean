import ScriptCompiler.Ir.Check
import ScriptCompiler.Lowering.Generate
import ScriptCompiler.Source.Unit

/-!
# Compiling a unit

From a unit and the options of the caller to a checked assembly. What the unit says about itself
extends the options; then it is lowered and, unless the caller declines, checked.
-/

namespace ScriptCompiler

open Lowering (Mode Naming)

/-- What the caller asks for. -/
structure Options where
  mode : Mode := .program
  /-- The triple of the target; `none` for the host. -/
  target : Option String := none
  /-- The effort of the back end. -/
  optLevel : Nat := 2
  /-- Variables whose history is kept. -/
  observed : List String := []
  /-- Imported modules in the order in which they are initialized. -/
  importedModules : List String := []
  /-- Names of other modules that top-level code may use. -/
  importedNames : List String := []
  /-- Beginnings of symbols that a library makes visible besides its own. -/
  exportPrefixes : List String := []
  /-- Whether the assembly is checked. -/
  verify : Bool := true

namespace Options

/-- The greatest effort of the back end. -/
def maxOptLevel : Nat := 3

/-- The mode of a unit: one that names its module is a library, whatever the caller says. -/
def modeFor (o : Options) (u : SourceUnit) : Mode :=
  match o.mode, u.module with
  | .program, some module => .library module
  | mode, _ => mode

/-- The options for a unit: its variables with a history and its imports are added, and sets of
names are in rising order. -/
def mergedWith (o : Options) (u : SourceUnit) : Options :=
  { o with
    mode := o.modeFor u
    optLevel := min o.optLevel maxOptLevel
    observed := Text.sortedNames (o.observed ++ u.observed)
    importedModules := Text.addNew o.importedModules u.importedModules
    importedNames := Text.sortedNames o.importedNames }

/-- How a unit names its symbols under the options. -/
def naming (o : Options) : Naming where
  mode := o.mode
  importedModules := o.importedModules
  importedNames := o.importedNames
  extraExports := o.exportPrefixes

/-- The target machine. -/
def machine (o : Options) : Target := .resolve o.target

end Options

/-- The result of a compilation. -/
structure Compiled where
  assembly : Ir.Assembly
  /-- The result of the check; `none` when there was none. -/
  verdict : Option Ir.Verdict
  /-- What the program frees at its end. -/
  cleanup : List Lowering.Cleanup
  /-- Warnings of the lowering, then of the check. -/
  warnings : List String

/-- Check an assembly; it fails on any fault. -/
def verified (a : Ir.Assembly) : Except Error Ir.Verdict :=
  let verdict := a.check false
  if verdict.valid then .ok verdict
  else .error (.verificationFailed (verdict.faults.map Ir.Fault.message))

/-- Compile a unit. -/
def compile (options : Options) (u : SourceUnit) : Except Error Compiled := do
  let options := options.mergedWith u
  let generated ← Lowering.generate options.machine options.naming options.observed u.statements
  let verdict ← if options.verify then some <$> verified generated.assembly else pure none
  return { assembly := generated.assembly
           verdict
           cleanup := generated.cleanup
           warnings := generated.warnings ++ (verdict.map (·.warnings)).getD [] }

end ScriptCompiler
