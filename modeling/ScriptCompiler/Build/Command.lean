import ScriptCompiler.Build.Path
import ScriptCompiler.Target

/-!
# The back end and the linker

The text of an assembly is turned into an object by one program, and objects into an executable by
another. Here are the commands that run them, and the places of their results.
-/

namespace ScriptCompiler.Build

/-- What a build produces. -/
inductive Artifact where
  /-- The text of the assembly. -/
  | ir
  /-- An object. -/
  | obj
  /-- An executable, or a WebAssembly module. -/
  | exe
deriving DecidableEq

/-- A program with its arguments. -/
structure Command where
  program : String
  args : List String
deriving DecidableEq

/-- The words of a command. -/
def Command.words (c : Command) : List String := c.program :: c.args

/-- No word has a zero character, which would end it for the system. -/
def Command.isClean (c : Command) : Bool := c.words.all fun word => '\x00' ∉ word.toList

/-- The programs in use. -/
structure Tools where
  backend : String := "llc"
  /-- `none` for the usual linker of the target. -/
  linker : Option String := none

namespace Tools

/-- The linker for a target. -/
def linkerFor (t : Tools) (target : Target) : String :=
  t.linker.getD (if target.isWasm then "clang" else "cc")

/-- The command that turns the assembly text at `ir` into the object at `obj`. The triple is passed
only when the caller chose the target. -/
def objectCommand (t : Tools) (ir obj : Path) (optLevel : Nat) (target : Target)
    (explicitTarget : Bool) : Command where
  program := t.backend
  args := ["-O" ++ toString (min optLevel 3), "-filetype=obj"]
    ++ (if explicitTarget then ["-mtriple=" ++ target.triple] else [])
    ++ [ir.text, "-o", obj.text]

/-- The command that links objects, and the run-time library if there is one. -/
def linkCommand (t : Tools) (objects : List Path) (runtime : Option Path) (output : Path)
    (target : Target) : Command where
  program := t.linkerFor target
  args :=
    (if target.isWasm then
      ["--target=" ++ target.triple, "-nostdlib", "-Wl,--no-entry", "-Wl,--export-all",
        "-Wl,--allow-undefined"]
    else [])
    ++ (objects ++ runtime.toList).map Path.text ++ ["-o", output.text]
    ++ (if target.isWasm then [] else ["-lm"])

end Tools

/-- Where the result goes when the caller does not say: beside the input, under its stem. -/
def defaultOutput (input : Path) (artifact : Artifact) (target : Target) : Path :=
  let base := input.withFileName (input.stem?.getD input.text.toList)
  match artifact with
  | .ir => base.withExtension "ll"
  | .obj => base.withExtension "o"
  | .exe => if target.isWasm then base.withExtension "wasm" else base

end ScriptCompiler.Build
