import ScriptCompiler.Build.Run

/-!
# The program

Reads the files that a build may need, runs the build on them, and writes what it left behind. No
other program is started from here, so that a build that needs one reports that it was not found.
-/

namespace ScriptCompiler.Main

open Build

/-- The text of a file, if it can be read. -/
def readText? (name : String) : IO (Option String) := do
  try return some (← IO.FS.readFile name) catch _ => return none

/-- The name is that of a directory. -/
def isDirectory (name : String) : IO Bool := do
  try (← IO.FS.realPath name).isDir catch _ => return false

/-- The disk with the directories on the way to a path. -/
def loadDirectories (d : Disk) (path : Build.Path) : IO Disk := do
  let names := ((splitAtSlashes path.text.toList).map String.ofList)
  let mut d := d
  for k in [1:names.length + 1] do
    let name := Text.joined "/" (names.take k)
    if ← isDirectory name then
      if let .ok l := d.locate name then
        d := { d with directories := l :: d.directories }
  return d

/-- The disk with the files that paths name, and with those that units among them import. -/
partial def load (d : Disk) : List Build.Path → IO Disk
  | [] => return d
  | path :: rest => do
    let d ← loadDirectories d path
    match d.locate path.text, ← readText? path.text with
    | .ok l, some text =>
      if (d.file? l).isSome then load d rest
      else
        let imports := ((SourceUnit.read? text).map (·.imports)).getD []
        load (d.put l text) (imports.filterMap (·.path.map Build.Path.mk) ++ rest)
    | _, _ => load d rest

/-- The variables of the process that a build looks at. -/
def readVariables : IO (List (String × String)) := do
  let found ← ["EIGEN_LLC", "EIGEN_CC", "EIGEN_RUNTIME"].mapM fun name => do
    return (← IO.getEnv name).map fun value => (name, value)
  return found.filterMap id

/-- The files that a run with arguments may need. -/
def loadFor (args : List String) : IO Disk :=
  match Settings.ofArguments args with
  | .ok s => do load (← (s.output.toList).foldlM loadDirectories {}) [s.input]
  | .error _ => return {}

end ScriptCompiler.Main

open ScriptCompiler ScriptCompiler.Build in
/-- The entry point. -/
def main (args : List String) : IO UInt32 := do
  let disk ← ScriptCompiler.Main.loadFor args
  let outcome := runProgram (.ofVariables (← ScriptCompiler.Main.readVariables)) { disk } args
  for (l, text) in disk.changes outcome.workspace.disk do
    IO.FS.writeFile (locationText l) text
  IO.print outcome.stdout
  IO.eprint outcome.stderr
  return outcome.exitCode.toUInt32
