import ScriptCompiler.Lowering.Linkage
import ScriptCompiler.Lowering.Word
import ScriptCompiler.Source.Node

/-!
# The state of a compilation

A unit is lowered by steps `Lower`: they read what is settled before the first statement
(`Context`), change what grows (`State`), and fail with an error. This module has the steps that the
lowering of expressions and of statements share: labels, string constants, the memory that the end
of a program frees, and the reading of variables.
-/

namespace ScriptCompiler.Lowering

open Ir (Assembly Builder Emit Ty Value)

/-- Names with what they stand for. -/
abbrev Table (α : Type) := List (String × α)

/-- The table with a name given a new meaning. -/
def Table.set {α : Type} (t : Table α) (name : String) (value : α) : Table α :=
  (name, value) :: t.filter (·.1 ≠ name)

/-- What is settled before the first statement. -/
structure Context where
  target : Target
  naming : Naming
  /-- Variables whose history the program asks about. -/
  observed : List String
  /-- Variables that the body of a function at top level reads. -/
  shared : List String

/-- A function of the unit. -/
structure Routine where
  name : String
  symbol : String
  params : List String
  body : List Node

/-- Memory that the end of the program frees. -/
structure Cleanup where
  /-- The global with its address, null until it is reserved. -/
  slot : String
  /-- The function that frees it, and takes null. -/
  destroy : String
deriving DecidableEq

/-- What grows as a unit is lowered. -/
structure State where
  builder : Builder
  assembly : Assembly
  externals : Externals := {}
  scope : Scope := .topLevel
  /-- Variables at top level. -/
  globals : Table Binding := []
  /-- Variables of the function being compiled. -/
  locals : Table Binding := []
  /-- Functions in the order of their first definition. -/
  functions : List Routine := []
  /-- Struct types with their fields. -/
  structs : Table (List String) := []
  /-- The ends of the loops around, innermost first. -/
  loopEnds : List String := []
  cleanup : List Cleanup := []
  /-- The variable assigned last in this scope. -/
  lastBound : Option String := none
  /-- How many labels have been made. -/
  labels : Nat := 0
  /-- How many string constants have been made. -/
  strings : Nat := 0
  warnings : List String := []

/-- A step of lowering. -/
abbrev Lower := ReaderT Context (StateT State (Except Error))

/-- A step of the builder as a step of lowering. -/
def emit {α : Type} (step : Emit α) : Lower α :=
  modifyGet fun s =>
    let (a, builder) := step s.builder
    (a, { s with builder })

instance (priority := low) : MonadLift Emit Lower := ⟨emit⟩

/-- Emit what a conversion asks for, or fail where there is none. -/
def perform {α : Type} (conversion : Except Error (Emit α)) : Lower α := do
  emit (← conversion)

/-- Fail because an operator does not apply. -/
def refuse {α : Type} (operator hint : String) : Lower α :=
  throw (.invalidOperator operator (some hint))

namespace State

/-- The variables of the scope itself. -/
def own (s : State) : Table Binding :=
  match s.scope with
  | .function => s.locals
  | .topLevel => s.globals

/-- The variable that a name reads: in a function a local one, or else a global one in reach. -/
def find? (s : State) (name : String) : Option Binding :=
  match s.scope with
  | .topLevel => s.globals.lookup name
  | .function => (s.locals.lookup name).or ((s.globals.lookup name).filter Binding.isModuleLevel)

/-- The names of variables in sight, in rising order. -/
def visibleNames (s : State) : List String :=
  match s.scope with
  | .topLevel => Text.sortedNames (s.globals.map (·.1))
  | .function => Text.sortedNames (s.globals.map (·.1) ++ s.locals.map (·.1))

/-- The function with a name. -/
def routine? (s : State) (name : String) : Option Routine := s.functions.find? (·.name = name)

/-- The function with a symbol. -/
def routineOf? (s : State) (symbol : String) : Option Routine :=
  s.functions.find? (·.symbol = symbol)

/-- The state with a variable of the scope bound. -/
def bind (s : State) (name : String) (b : Binding) : State :=
  match s.scope with
  | .function => { s with locals := Table.set s.locals name b }
  | .topLevel => { s with globals := Table.set s.globals name b }

/-- The state with a function added, unless one of that name is there already. -/
def addRoutine (s : State) (r : Routine) : State :=
  if (s.routine? r.name).isSome then s else { s with functions := s.functions ++ [r] }

end State

/-! ## Labels and blocks -/

/-- A label that no other block of the unit has. -/
def freshLabel (stem : String) : Lower String :=
  modifyGet fun s => (stem ++ "_" ++ toString s.labels, { s with labels := s.labels + 1 })

/-- Continue at the end of the block with a label. -/
def position (label : String) : Lower Unit := do
  let builder ← (← get).builder.positionAtEnd label
  modify fun s => { s with builder }

/-- Continue in a new block. -/
def openBlock (label : String) : Lower Unit := do
  modify fun s => { s with builder := s.builder.appendBlock label }
  position label

/-- The current block is complete. -/
def isTerminated : Lower Bool := return (← get).builder.isTerminated

/-- Jump, unless the current block is complete. -/
def fallThrough (label : String) : Lower Unit := do
  unless ← isTerminated do Emit.br label

/-! ## Globals -/

/-- Add a global to the assembly. -/
def addGlobal (g : Ir.Global) : Lower Unit :=
  modify fun s => { s with assembly := s.assembly.addGlobal g }

/-- The address of a new constant with the bytes of a text and a zero behind them. -/
def stringConstant (text : String) : Lower Value := do
  let name := ".str." ++ toString (← get).strings
  let bytes := text.toUTF8.toList ++ [0]
  modify fun s => { s with strings := s.strings + 1 }
  addGlobal { name, ty := .array bytes.length .i8, visibility := .hidden,
              init := some (.bytes bytes), constant := true }
  return .global name

/-- Note that the end of the program is to free an address. Only what the entry function of a
program reserves is freed. -/
def trackAllocation (address : Value) (destroy : String) : Lower Unit := do
  let s ← get
  if s.scope = .topLevel && !(← read).naming.isLibrary then
    let slot := "__cleanup." ++ toString s.cleanup.length
    addGlobal { name := slot, ty := .ptr, visibility := .hidden, init := some .null }
    Emit.store address (.global slot)
    modify fun s => { s with cleanup := s.cleanup ++ [⟨slot, destroy⟩] }

/-- Call a function that reserves memory, and note what frees it. -/
def allocate (callee : String) (args : List Value) (destroy : String) : Lower Value := do
  let address ← Emit.call .ptr callee args
  trackAllocation address destroy
  return address

/-- Add a warning. -/
def warn (message : String) : Lower Unit :=
  modify fun s => { s with warnings := s.warnings ++ [message] }

/-! ## Reading variables -/

/-- The current value of a variable. -/
def load (b : Binding) : Emit Typed := do
  return ⟨← Emit.load b.storage.slotType b.slot, b.kind⟩

/-- The value of an external variable. A function of the unit with that symbol is no variable. -/
def loadExternal (symbol : String) : Lower Typed := do
  let s ← get
  if (s.routineOf? symbol).isSome then throw (symbolConflict symbol "read as a variable")
  let (externals, assembly) ← s.externals.useVariable s.assembly symbol
  modify fun s => { s with externals, assembly }
  load (Externals.binding symbol)

end ScriptCompiler.Lowering
