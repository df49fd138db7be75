import ScriptCompiler.Lowering.Stmt

/-!
# Lowering a unit

First the functions and struct types at top level are collected, so that code can use what is
defined further down. Then comes the entry function, which calls the initializers of imported
modules and runs the statements at top level. Last come the bodies of the functions, when every
variable at top level has its storage.
-/

namespace ScriptCompiler.Lowering

open Ir (Assembly Builder Emit Func Ty)

/-- The result of lowering a unit. -/
structure Generated where
  assembly : Assembly
  /-- What the program frees at its end. -/
  cleanup : List Cleanup
  warnings : List String

/-- The state after taking note of one statement at top level. -/
def declare (naming : Naming) (s : State) : Node → State
  | .functionDef name params body =>
    s.addRoutine { name, symbol := naming.functionSymbol name, params, body }
  | .structDef name fields => { s with structs := Table.set s.structs name fields }
  | _ => s

/-- The assembly before anything is lowered: the shared record types, and the declarations of the
catalogued functions and of the initializers that will be called. -/
def emptyAssembly (target : Target) (naming : Naming) : Assembly :=
  let name := match naming.mode with
    | .program => "main"
    | .library module => module
  declareInits naming
    (Catalog.declareAll target { name, triple := target.triple, types := Ir.sharedTypes })

/-- The entry function before its first instruction. -/
def entrySkeleton (naming : Naming) : Func :=
  .skeleton naming.entrySymbol (if naming.isLibrary then .void else .i32) []

/-- The state before the first statement. -/
def State.start (target : Target) (naming : Naming) (statements : List Node) : State :=
  statements.foldl (declare naming)
    { builder := .ofFunc (entrySkeleton naming), assembly := emptyAssembly target naming }

/-- The variables that the bodies of functions read. -/
def sharedNames (functions : List Routine) : List String :=
  functions.flatMap fun r => Node.readsAll r.body

/-- Add the function under construction to the assembly. -/
def finishFunction : Lower Unit :=
  modify fun s => { s with assembly := s.assembly.addFunction s.builder.func }

/-- Free what the entry function reserved, each in turn. -/
def destroyAll (cleanup : List Cleanup) : Emit Unit :=
  cleanup.forM fun entry => do
    let address ← Emit.load .ptr (.global entry.slot)
    Emit.callVoid entry.destroy [address]

/-- End the entry function: a program frees its memory and returns zero. -/
def finishEntry : Lower Unit := do
  if (← read).naming.isLibrary then
    unless ← isTerminated do Emit.ret none
  else
    fallThrough exitLabel
    openBlock exitLabel
    destroyAll (← get).cleanup
    Emit.ret (some (.int .i32 0))
  finishFunction

/-- Lower the entry function. -/
def entryFunction (statements : List Node) : Lower Unit := do
  callInits (← read).naming
  block statements
  finishEntry

/-- The state at the start of a function. -/
def State.enter (s : State) (r : Routine) : State :=
  { s with
    builder := .ofFunc (.skeleton r.symbol .i64 (r.params.map fun _ => .i64))
    scope := .function
    locals := []
    lastBound := none }

/-- Make the parameters variables of the function. -/
def bindParams (params : List (String × Ir.Value)) : Lower Unit :=
  params.forM fun (name, word) => bindLocal name (.packed word)

/-- Lower the body of a function. -/
def functionBody (r : Routine) : Lower Unit := do
  modify (·.enter r)
  bindParams (r.params.zip (← get).builder.func.paramValues)
  block r.body
  unless ← isTerminated do Emit.ret (some (.word 0))
  finishFunction

/-- Lower the body of a function with the symbol and the parameters that were noted for its name. -/
def notedBody (r : Routine) : Lower Unit := do
  match (← get).routine? r.name with
  | some noted => functionBody { noted with body := r.body }
  | none => throw (.internal (.undeclared r.name))

/-- Lower the entry function and every function. -/
def wholeUnit (statements : List Node) : Lower Unit := do
  entryFunction statements
  (← get).functions.forM notedBody

/-- Lower the statements of a unit. -/
def generate (target : Target) (naming : Naming) (observed : List String)
    (statements : List Node) : Except Error Generated := do
  let start := State.start target naming statements
  let ctx := { target, naming, observed, shared := sharedNames start.functions }
  let ((), s) ← ((wholeUnit statements).run ctx).run start
  return { assembly := s.assembly, cleanup := s.cleanup, warnings := s.warnings }

end ScriptCompiler.Lowering
