import ScriptCompiler.Ir.Assembly

/-!
# Checking an assembly

A generated assembly is checked before it is printed. A fault is a broken rule: of symbols, of the
shape of blocks, of registers, of types, of calls or of references to globals. Faults come in the
order of the text, function by function; in each function the shape of its blocks is looked at
first, then its registers, then its instructions one by one. A block that nothing jumps to is only
worth a warning.
-/

namespace ScriptCompiler.Ir

/-- A broken rule. -/
inductive Fault where
  /-- A block does not end in a terminator. -/
  | missingTerminator (function block : String)
  /-- A terminator is followed by more instructions. -/
  | misplacedTerminator (function block : String) (index : Nat)
  /-- Two blocks have one label. -/
  | duplicateLabel (function label : String)
  /-- A jump goes to no block. -/
  | unknownLabel (function label : String)
  /-- A register is defined again. -/
  | registerRedefined (function : String) (reg : Reg)
  /-- A register is read that nothing above defines. -/
  | useBeforeDef (function block : String) (reg : Reg)
  /-- An operand has a type that the instruction does not take. -/
  | typeMismatch (function instruction expected : String)
  /-- A function is called that is neither defined nor declared. -/
  | unknownCallee (function callee : String)
  /-- A call passes the wrong number of arguments. -/
  | arityMismatch (function callee : String) (expected got : Nat)
  /-- The address of a global is taken that does not exist. -/
  | unknownGlobal (function name : String)
  /-- A symbol is defined again. -/
  | duplicateSymbol (name : String)
deriving DecidableEq

/-- The wording of a fault. -/
def Fault.message : Fault → String
  | .missingTerminator function block => s!"@{function}: block '{block}' has no terminator"
  | .misplacedTerminator function block index =>
    s!"@{function}: block '{block}' has a terminator at position {index}"
      ++ " followed by more instructions"
  | .duplicateLabel function label => s!"@{function}: duplicate block label '{label}'"
  | .unknownLabel function label => s!"@{function}: branch to unknown label '{label}'"
  | .registerRedefined function reg =>
    s!"@{function}: register {regText reg} defined more than once"
  | .useBeforeDef function block reg =>
    s!"@{function}: register {regText reg} used in '{block}' before its definition"
  | .typeMismatch function instruction expected =>
    s!"@{function}: type mismatch in `{instruction}` (expected {expected})"
  | .unknownCallee function callee => s!"@{function}: call to undeclared function @{callee}"
  | .arityMismatch function callee expected got =>
    s!"@{function}: call to @{callee} passes {got} argument(s), declared with {expected}"
  | .unknownGlobal function name => s!"@{function}: reference to unknown global @{name}"
  | .duplicateSymbol name => s!"symbol @{name} defined more than once"

/-- The elements that stand in `seen` or earlier in the list. -/
def repeats {α : Type} [DecidableEq α] (seen : List α) : List α → List α
  | [] => []
  | x :: rest => if x ∈ seen then x :: repeats seen rest else repeats (x :: seen) rest

namespace Assembly

/-- The names of globals and functions, in that order. -/
def definedNames (a : Assembly) : List String :=
  a.globals.map (·.name) ++ a.functions.map (·.name)

/-- The declared names that are declared before, or are names of globals. -/
def clashingDeclarations (a : Assembly) (seen : List String) : List String → List String
  | [] => []
  | name :: rest =>
    let others := a.clashingDeclarations (name :: seen) rest
    if name ∈ seen ∨ (a.global? name).isSome then name :: others else others

/-- Faults of symbols. -/
def symbolFaults (a : Assembly) : List Fault :=
  (repeats [] a.definedNames).map .duplicateSymbol
    ++ (a.clashingDeclarations [] (a.declarations.map (·.name))).map .duplicateSymbol

/-- The signature that calls of a name are held to: the last definition, or else the last
declaration. -/
def calledSignature? (a : Assembly) (name : String) : Option Signature :=
  ((a.functions.reverse.find? (·.name = name)).map Func.signature).or
    (a.declarations.reverse.find? (·.name = name))

end Assembly

/-! ## The shape of blocks -/

/-- Faults of one block: no terminator at its end, one before it, a jump to no block. -/
def Block.shapeFaults (function : String) (labels : List String) (b : Block) : List Fault :=
  (if b.isTerminated then [] else [.missingTerminator function b.label])
    ++ b.instrs.zipIdx.flatMap fun (i, k) =>
      (if i.isTerminator && k + 1 != b.instrs.length then
        [.misplacedTerminator function b.label k] else [])
      ++ (i.successors.filter (· ∉ labels)).map (.unknownLabel function)

namespace Func

/-- The labels of the blocks. -/
def labels (f : Func) : List String := f.blocks.map (·.label)

/-- The labels that some instruction may jump to. -/
def targets (f : Func) : List String := f.instrs.flatMap Instr.successors

/-- Faults of labels and terminators. -/
def shapeFaults (f : Func) : List Fault :=
  (repeats [] f.labels).map (.duplicateLabel f.name)
    ++ f.blocks.flatMap (Block.shapeFaults f.name f.labels)

/-- A warning for each block but the first that nothing jumps to. -/
def warnings (f : Func) : List String :=
  ((f.labels.drop 1).filter (· ∉ f.targets)).map fun label =>
    s!"@{f.name}: block '{label}' has no predecessors"

end Func

/-! ## Registers -/

/-- Faults of registers from an instruction on, with the registers defined before it. Each
instruction comes with the label of its block. -/
def registerFaults (function : String) (defined : List Reg) : List (String × Instr) → List Fault
  | [] => []
  | (block, i) :: rest =>
    let undefined := (i.operands.filterMap Value.reg?).filter (· ∉ defined)
    undefined.map (.useBeforeDef function block)
      ++ match i.dst? with
        | none => registerFaults function defined rest
        | some dst =>
          (if dst ∈ defined then [.registerRedefined function dst] else [])
            ++ registerFaults function (dst :: defined) rest

/-- The instructions of a function, each with the label of its block. -/
def Func.labelledInstrs (f : Func) : List (String × Instr) :=
  f.blocks.flatMap fun b => b.instrs.map fun i => (b.label, i)

/-- Faults of registers. Parameters are defined from the start. -/
def Func.registerFaults (f : Func) : List Fault :=
  Ir.registerFaults f.name f.paramRegs f.labelledInstrs

/-! ## Types, calls and references -/

/-- What the operands of an instruction should have been, when they are not; `ret` is the result
type of the function. Calls are looked at apart. -/
def Instr.expected? (ret : Ty) : Instr → Option String
  | .load _ _ ptr | .store _ ptr => if ptr.ty = .ptr then none else some "pointer address"
  | .gep _ _ base index =>
    if base.ty = .ptr ∧ index.ty.isInt then none else some "pointer base and integer index"
  | .binary _ op lhs rhs =>
    if lhs.ty = rhs.ty ∧ (if op.isFloat then lhs.ty = .double else lhs.ty.isInt) then none
    else some ("matching " ++ (if op.isFloat then "double" else "integer") ++ " operands")
  | .fneg _ operand => if operand.ty = .double then none else some "double operand"
  | .fcmp _ _ lhs rhs =>
    if lhs.ty = .double ∧ rhs.ty = .double then none else some "double operands"
  | .icmp _ _ lhs rhs =>
    if lhs.ty = rhs.ty ∧ (lhs.ty.isInt ∨ lhs.ty = .ptr) then none
    else some "matching integer or pointer operands"
  | .cast _ op value target =>
    if op.fits value.ty target then none else some ("valid " ++ op.mnemonic ++ " operand")
  | .condBr cond _ _ => if cond.ty = .bool then none else some "i1 condition"
  | .ret (some value) => if value.ty = ret then none else some ("return of " ++ ret.text)
  | .ret none => if ret = .void then none else some ("return of " ++ ret.text)
  | .alloca .. | .call .. | .br .. | .unreachable => none

/-- Faults of a call with the signature that it is held to. -/
def callFaults (function : String) (signature : Option Signature) (i : Instr) (ret : Ty)
    (callee : String) (args : List Value) : List Fault :=
  match signature with
  | none => [.unknownCallee function callee]
  | some s =>
    if s.params.length ≠ args.length then
      [.arityMismatch function callee s.params.length args.length]
    else if s.params = args.map (·.ty) ∧ s.ret = ret then []
    else [.typeMismatch function i.text { s with name := callee }.text]

/-- Faults of types of one instruction in a function. -/
def Assembly.typeFaults (a : Assembly) (f : Func) (i : Instr) : List Fault :=
  match i with
  | .call _ ret callee args => callFaults f.name (a.calledSignature? callee) i ret callee args
  | _ =>
    match i.expected? f.ret with
    | some expected => [.typeMismatch f.name i.text expected]
    | none => []

/-- Faults of references of one instruction in a function. -/
def Assembly.referenceFaults (a : Assembly) (f : Func) (i : Instr) : List Fault :=
  ((i.operands.filterMap Value.global?).filter (· ∉ a.globals.map (·.name))).map
    (.unknownGlobal f.name)

/-- Faults of a function. -/
def Assembly.functionFaults (a : Assembly) (f : Func) : List Fault :=
  f.shapeFaults ++ f.registerFaults
    ++ f.instrs.flatMap fun i => a.typeFaults f i ++ a.referenceFaults f i

/-! ## The verdict -/

/-- The size of an assembly. -/
structure Size where
  functions : Nat
  blocks : Nat
  instrs : Nat
  calls : Nat
  globals : Nat
  /-- Globals defined elsewhere, and declared functions that are called. -/
  externals : Nat
deriving DecidableEq

/-- The size of an assembly. -/
def Assembly.size (a : Assembly) : Size :=
  let calls := a.functions.flatMap Func.calls
  { functions := a.functions.length
    blocks := (a.functions.flatMap (·.blocks)).length
    instrs := a.instrCount
    calls := calls.length
    globals := a.globals.length
    externals := a.globals.countP Global.isDeclaration
      + a.declarations.countP (·.name ∈ calls) }

/-- The result of a check. -/
structure Verdict where
  valid : Bool
  faults : List Fault
  warnings : List String
  size : Size

/-- Every fault of an assembly. -/
def Assembly.faults (a : Assembly) : List Fault :=
  a.symbolFaults ++ a.functions.flatMap a.functionFaults

/-- Every warning about an assembly. -/
def Assembly.warnings (a : Assembly) : List String := a.functions.flatMap Func.warnings

/-- The check of an assembly. When `strict`, a warning is enough to fail it. -/
def Assembly.check (a : Assembly) (strict : Bool) : Verdict :=
  { valid := a.faults.isEmpty && (!strict || a.warnings.isEmpty)
    faults := a.faults
    warnings := a.warnings
    size := a.size }

end ScriptCompiler.Ir
