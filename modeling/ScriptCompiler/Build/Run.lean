import ScriptCompiler.Build.CommandLine
import ScriptCompiler.Build.Disk
import ScriptCompiler.Ir.Listing
import ScriptCompiler.Source.Exchange

/-!
# Running a build

A build reads a unit, compiles it, and writes what was asked for; an executable takes the units that
it imports along. All that it touches is a `Workspace`: the files, the programs that can be run, and
a record of what was printed and run. A build that fails leaves behind what it did before, so the
workspace is kept whatever the outcome.

Imports may form diamonds and cycles. Each path is built once, the first time it is met; the number
of imports on the disk bounds how deep they can lead.
-/

namespace ScriptCompiler.Build

/-- How a program behaves when it is run. -/
structure Program where
  exitCode : Nat := 0
  stderr : String := ""

/-- What a build works on. -/
structure Workspace where
  disk : Disk := {}
  /-- Programs by name. -/
  programs : List (String × Program) := []
  /-- What was printed. -/
  stdout : String := ""
  /-- What was printed with the error messages. -/
  stderr : String := ""
  /-- The commands that were run. -/
  calls : List Command := []

/-- What the environment says. -/
structure Environment where
  tools : Tools := {}
  runtime : Option Path := none

/-- The environment that variables describe: which programs to run, and the run-time library to
link. -/
def Environment.ofVariables (vars : List (String × String)) : Environment where
  tools := { backend := (vars.lookup "EIGEN_LLC").getD "llc"
             linker := vars.lookup "EIGEN_CC" }
  runtime := (vars.lookup "EIGEN_RUNTIME").map Path.mk

/-- Why a build fails. -/
inductive Failure where
  /-- A unit cannot be read or compiled, or a program fails. -/
  | compile (error : Error)
  /-- A file cannot be written. -/
  | unwritable (path : Path) (fault : DiskFault)
  /-- A library was to be made an executable. -/
  | libraryExecutable

/-- A step of a build. What it did to the workspace stays when it fails. -/
abbrev Job := ExceptT Failure (StateM Workspace)

/-! ## Steps -/

/-- The result, or the error as a failure. -/
def orFail {α : Type} : Except Error α → Job α
  | .ok a => return a
  | .error e => throw (.compile e)

/-- Read a unit. -/
def readUnit (path : Path) : Job SourceUnit := do
  match (← get).disk.read path with
  | .error fault => throw (.compile (.io path.text fault.text))
  | .ok text =>
    match SourceUnit.read? text with
    | some unit => return unit
    | none => throw (.compile (.inputFormat "the document is not a compilation unit"))

/-- Print. -/
def printText (text : String) : Job Unit :=
  modify fun w => { w with stdout := w.stdout ++ text }

/-- Write a file. -/
def writeText (path : Path) (text : String) : Job Unit := do
  match (← get).disk.sink path with
  | .error fault => throw (.unwritable path fault)
  | .ok (.file l) => modify fun w => { w with disk := w.disk.put l text }
  | .ok (.device .null) => return
  | .ok (.device .full) => throw (.unwritable path .noSpace)
  | .ok (.device .stdout) => printText text
  | .ok (.device .stderr) => modify fun w => { w with stderr := w.stderr ++ text }

/-- The program that a name starts. A name with a slash in it is a path; what is on the disk is no
program. -/
def Workspace.program (w : Workspace) (name : String) : Except DiskFault Program :=
  match w.programs.lookup name with
  | some program => .ok program
  | none =>
    if '/' ∈ name.toList then do
      let l ← w.disk.locate name
      throw (if (w.disk.get? l).isSome then .permissionDenied else .notFound)
    else if name = "." ∨ name = ".." then .error .permissionDenied
    else if maxNameBytes < name.utf8ByteSize then .error .nameTooLong
    else .error .notFound

/-- Run a command. -/
def runCommand (c : Command) : Job Unit := do
  unless c.isClean do
    throw (.compile (.io c.program "nul byte found in provided data"))
  match (← get).program c.program with
  | .error .notFound => throw (.compile (.toolNotFound c.program))
  | .error fault => throw (.compile (.io c.program fault.text))
  | .ok program =>
    modify fun w => { w with calls := w.calls ++ [c] }
    if program.exitCode ≠ 0 then
      throw (.compile (.toolFailed c.program
        s!"exit status: {program.exitCode}: {Text.trim program.stderr}"))

/-! ## Objects -/

/-- What all compilations of one build share. -/
structure Plan where
  tools : Tools
  target : Target
  /-- The triple that the caller chose. -/
  triple : Option String
  optLevel : Nat
  verify : Bool

/-- Write the text of an assembly and turn it into an object. -/
def emitObject (plan : Plan) (a : Ir.Assembly) (ir obj : Path) : Job Unit := do
  writeText ir a.text
  runCommand (plan.tools.objectCommand ir obj plan.optLevel plan.target plan.triple.isSome)

/-- The options for an imported unit. -/
def Plan.importOptions (plan : Plan) (module : String) : Options where
  mode := .library module
  target := plan.triple
  optLevel := plan.optLevel
  verify := plan.verify

/-- How far the building of imports has come. -/
structure Progress where
  /-- Paths that were met. -/
  visited : List (List Char × List (List Char)) := []
  /-- Objects to link. -/
  objects : List Path := []

/-- A step in building imports. -/
abbrev Importing := StateT Progress Job

/-- Compile an imported unit to an object, and give the imports of its own. -/
def compileImport (plan : Plan) (module : String) (path : Path) : Job (List Import) := do
  let unit ← readUnit path
  let compiled ← orFail (compile (plan.importOptions module) unit)
  emitObject plan compiled.assembly (path.withExtension "ll") (path.withExtension "o")
  return unit.imports

/-- Build one import, unless it was met before; `nested` builds the imports of its unit. An import
without a path is expected from the run-time library, and one that is not a unit is linked as it is.
-/
def buildImport (plan : Plan) (nested : List Import → Importing Unit) (i : Import) :
    Importing Unit := do
  match i.path.map Path.mk with
  | none => return
  | some path =>
    unless path.key ∈ (← get).visited do
      modify fun p => { p with visited := path.key :: p.visited }
      if path.extension? = some "json".toList then
        nested (← compileImport plan i.module path)
        modify fun p => { p with objects := p.objects ++ [path.withExtension "o"] }
      else modify fun p => { p with objects := p.objects ++ [path] }

/-- Build imports to a given depth, each with its own imports before it. -/
def buildImports (plan : Plan) : (depth : Nat) → List Import → Importing Unit
  | 0, _ => return
  | depth + 1, imports => imports.forM (buildImport plan (buildImports plan depth))

/-- The number of imports in all units of a disk. -/
def Disk.importCount (d : Disk) : Nat :=
  (d.files.flatMap fun (_, text) => ((SourceUnit.read? text).map (·.imports)).getD []).length

/-- Build the imports of a unit and give the objects to link. A chain of imports that are all new
cannot be longer than there are imports on the disk. -/
def buildAllImports (plan : Plan) (imports : List Import) : Job (List Path) := do
  let depth := (← get).disk.importCount + imports.length + 1
  let ((), progress) ← (buildImports plan depth imports).run {}
  return progress.objects

/-! ## A whole build -/

/-- The plan of a build. -/
def Settings.plan (s : Settings) (env : Environment) : Plan where
  tools := env.tools
  target := s.options.machine
  triple := s.target
  optLevel := s.optLevel
  verify := !s.noVerify

/-- Make an executable of a compiled program. -/
def linkProgram (plan : Plan) (runtime : Option Path) (u : SourceUnit) (a : Ir.Assembly)
    (output : Path) : Job Unit := do
  let mainObject := output.withExtension "o"
  emitObject plan a (output.withExtension "ll") mainObject
  let objects ← buildAllImports plan u.imports
  runCommand (plan.tools.linkCommand (mainObject :: objects) runtime output plan.target)

/-- Carry out what the settings ask for. -/
def build (env : Environment) (s : Settings) : Job Unit := do
  let plan := s.plan env
  let output := s.output.getD (defaultOutput s.input s.artifact plan.target)
  let unit ← readUnit s.input
  let compiled ← orFail (compile s.options unit)
  if s.dumpIr then printText compiled.assembly.listed
  match s.artifact with
  | .ir => writeText output compiled.assembly.text
  | .obj => emitObject plan compiled.assembly (output.withExtension "ll") output
  | .exe =>
    match s.options.modeFor unit with
    | .library _ => throw .libraryExecutable
    | .program =>
      linkProgram plan (s.runtime.or env.runtime) unit compiled.assembly output

/-! ## Reports -/

/-- The wording of a failure. -/
def Failure.message : Failure → String
  | .compile e => e.report
  | .unwritable path fault => "failed to write " ++ path.text ++ ": " ++ fault.text
  | .libraryExecutable => "a library unit cannot be linked into an executable; use --obj"

/-- The detailed form of a fault. -/
def DiskFault.shown (f : DiskFault) : Text.Shown :=
  let fields := [("kind", .atom f.name), ("message", Error.shownText f.message)]
  match f.code? with
  | some code => .record "Os" (("code", .atom (toString code)) :: fields)
  | none => .record "Error" fields

/-- The detailed form of a failure. -/
def Failure.shown : Failure → Text.Shown
  | .compile e => e.shown
  | .unwritable path fault =>
    .record "Error"
      [("context", .atom (Text.QuoteStyle.prose.quote ("failed to write " ++ path.text))),
        ("source", fault.shown)]
  | .libraryExecutable => Error.shownText Failure.libraryExecutable.message

/-- What a run leaves behind. -/
structure Outcome where
  exitCode : Nat
  stdout : String
  stderr : String
  workspace : Workspace

/-- The name and version of the program. -/
def versionText : String := "eigenc 0.4.0\n"

/-- How the program is called. -/
def usageText : String := "Usage: eigenc [OPTIONS] <INPUT>\n"

/-- Run the program with arguments. -/
def runProgram (env : Environment) (w : Workspace) (args : List String) : Outcome :=
  match Settings.ofArguments args with
  | .error .usage => ⟨2, "", usageText, w⟩
  | .error .help => ⟨0, usageText, "", w⟩
  | .error .version => ⟨0, versionText, "", w⟩
  | .ok settings =>
    match (build env settings).run w with
    | (.ok (), w) => ⟨0, w.stdout, w.stderr, w⟩
    | (.error failure, w) =>
      let text := if settings.verbose then failure.shown.render 0 else failure.message
      ⟨1, w.stdout, w.stderr ++ "error: " ++ text ++ "\n", w⟩

end ScriptCompiler.Build
