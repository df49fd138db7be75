import ScriptCompiler.Build.Command
import ScriptCompiler.Compile

/-!
# The command line

Arguments are read from left to right, and the first that cannot be understood ends the reading, as
does a request for help or for the version. An option takes its value from the same argument or from
the next one, which must not look like an option itself. Only a few options may be given more than
once.
-/

namespace ScriptCompiler.Build

/-- What the arguments ask for. -/
structure Settings where
  input : Path
  output : Option Path
  optLevel : Nat
  target : Option String
  emit : Option Artifact
  obj : Bool
  exec : Bool
  module : Option String
  imports : List String
  observed : List String
  runtime : Option Path
  noVerify : Bool
  dumpIr : Bool
  verbose : Bool

namespace Settings

/-- What to produce: `--emit` decides, then `--exec`, then `--obj`. -/
def artifact (s : Settings) : Artifact :=
  s.emit.getD (if s.exec then .exe else if s.obj then .obj else .ir)

/-- The options of the compilation. -/
def options (s : Settings) : Options where
  mode := match s.module with
    | some module => .library module
    | none => .program
  target := s.target
  optLevel := s.optLevel
  observed := s.observed
  importedModules := s.imports
  verify := !s.noVerify

end Settings

/-- Why the reading of arguments ends before its time. -/
inductive Stop where
  /-- The arguments make no sense. -/
  | usage
  | help
  | version
deriving DecidableEq

/-- An option that takes a value. -/
inductive Valued where
  | output | optLevel | target | emit | module | importModule | observe | runtime
deriving DecidableEq

/-- An option without a value. -/
inductive Switch where
  | obj | exec | noVerify | dumpIr | verbose | help | version
deriving DecidableEq

namespace Valued

/-- The option with a long name. -/
def long? : String → Option Valued
  | "output" => some .output
  | "target" => some .target
  | "emit" => some .emit
  | "module" => some .module
  | "import" => some .importModule
  | "observe" => some .observe
  | "runtime" => some .runtime
  | _ => none

/-- The option with a short name. -/
def short? : Char → Option Valued
  | 'o' => some .output
  | 'O' => some .optLevel
  | _ => none

/-- The option may be given more than once. -/
def repeats : Valued → Bool
  | .importModule | .observe => true
  | _ => false

end Valued

namespace Switch

/-- The option with a long name. -/
def long? : String → Option Switch
  | "obj" => some .obj
  | "exec" => some .exec
  | "no-verify" => some .noVerify
  | "dump-ir" => some .dumpIr
  | "verbose" => some .verbose
  | "help" => some .help
  | "version" => some .version
  | _ => none

/-- The option with a short name. -/
def short? : Char → Option Switch
  | 'v' => some .verbose
  | 'h' => some .help
  | 'V' => some .version
  | _ => none

end Switch

/-! ## Values -/

/-- A path, which must not be empty. -/
def path? (text : String) : Option Path := if text.isEmpty then none else some ⟨text⟩

/-- A level from 0 to 3 in decimal digits, with or without a sign. -/
def level? (text : String) : Option Nat :=
  let (negative, digits) := match text.toList with
    | '+' :: digits => (false, digits)
    | '-' :: digits => (true, digits)
    | digits => (false, digits)
  match Ir.Ty.natural? digits with
  | some n => if n ≤ 3 ∧ (negative → n = 0) then some n else none
  | none => none

/-- An artifact by name. -/
def artifact? : String → Option Artifact
  | "ir" => some .ir
  | "obj" => some .obj
  | "exe" => some .exe
  | _ => none

/-- The value is one that the option takes. -/
def Valued.accepts (o : Valued) (value : String) : Bool :=
  match o with
  | .output | .runtime => (path? value).isSome
  | .optLevel => (level? value).isSome
  | .emit => (artifact? value).isSome
  | .target | .module | .importModule | .observe => true

/-! ## Reading -/

/-- The arguments read so far, in order. -/
structure Arguments where
  inputs : List String := []
  values : List (Valued × String) := []
  switches : List Switch := []

namespace Arguments

/-- Add the value of an option. -/
def addValue (a : Arguments) (o : Valued) (value : String) : Except Stop Arguments :=
  if (!o.repeats && (a.values.lookup o).isSome) || !o.accepts value then .error .usage
  else .ok { a with values := a.values ++ [(o, value)] }

/-- Add an option without a value. -/
def addSwitch (a : Arguments) (s : Switch) : Except Stop Arguments :=
  match s with
  | .help => .error .help
  | .version => .error .version
  | _ => if s ∈ a.switches then .error .usage else .ok { a with switches := a.switches ++ [s] }

/-- Add an input, of which there is only one. -/
def addInput (a : Arguments) (text : String) : Except Stop Arguments :=
  if a.inputs.isEmpty && (path? text).isSome then .ok { a with inputs := [text] }
  else .error .usage

/-- Read short options that stand together. The second component is an option whose value is still
to come. -/
def addShort (a : Arguments) : List Char → Except Stop (Arguments × Option Valued)
  | [] => .ok (a, none)
  | c :: rest =>
    match Valued.short? c, Switch.short? c with
    | some o, _ =>
      match rest with
      | [] => .ok (a, some o)
      | '=' :: value => do return (← a.addValue o (String.ofList value), none)
      | value => do return (← a.addValue o (String.ofList value), none)
    | none, some s => do (← a.addSwitch s).addShort rest
    | none, none => .error .usage

/-- Read a long option, with its value if there is one in the same argument. -/
def addLong (a : Arguments) (text : List Char) : Except Stop (Arguments × Option Valued) :=
  let name := String.ofList (text.takeWhile (· != '='))
  match Valued.long? name, Switch.long? name, text.dropWhile (· != '=') with
  | some o, _, _ :: value => do return (← a.addValue o (String.ofList value), none)
  | some o, _, [] => .ok (a, some o)
  | none, some s, [] => do return (← a.addSwitch s, none)
  | none, _, _ => .error .usage

/-- The argument looks like an option. -/
def isDashed (arg : String) : Bool :=
  match arg.toList with
  | '-' :: _ :: _ => true
  | _ => false

/-- Read one argument that is not `--`. -/
def addArgument (a : Arguments) (arg : String) : Except Stop (Arguments × Option Valued) :=
  match arg.toList with
  | '-' :: '-' :: long => a.addLong long
  | '-' :: c :: short => a.addShort (c :: short)
  | _ => do return (← a.addInput arg, none)

/-- Read arguments; `awaiting` is the option whose value comes next. Behind `--` all are inputs. -/
def read (a : Arguments) (awaiting : Option Valued) : List String → Except Stop Arguments
  | [] => if awaiting.isSome then .error .usage else .ok a
  | arg :: rest =>
    match awaiting with
    | some o =>
      if isDashed arg then .error .usage
      else do (← a.addValue o arg).read none rest
    | none =>
      if arg = "--" then rest.foldlM addInput a
      else do
        let (a, awaiting) ← a.addArgument arg
        a.read awaiting rest

/-- The last value of an option. -/
def value? (a : Arguments) (o : Valued) : Option String := a.values.lookup o

/-- Every value of an option. -/
def allValues (a : Arguments) (o : Valued) : List String :=
  (a.values.filter (·.1 = o)).map (·.2)

/-- The settings that the arguments make, if there is an input. -/
def settings? (a : Arguments) : Option Settings := do
  let input ← a.inputs.head?
  return { input := ⟨input⟩
           output := (a.value? .output).map Path.mk
           optLevel := ((a.value? .optLevel).bind level?).getD 0
           target := a.value? .target
           emit := (a.value? .emit).bind artifact?
           obj := .obj ∈ a.switches
           exec := .exec ∈ a.switches
           module := a.value? .module
           imports := a.allValues .importModule
           observed := a.allValues .observe
           runtime := (a.value? .runtime).map Path.mk
           noVerify := .noVerify ∈ a.switches
           dumpIr := .dumpIr ∈ a.switches
           verbose := .verbose ∈ a.switches }

end Arguments

/-- The settings that a command line stands for. -/
def Settings.ofArguments (args : List String) : Except Stop Settings := do
  match (← Arguments.read {} none args).settings? with
  | some settings => return settings
  | none => throw .usage

end ScriptCompiler.Build
