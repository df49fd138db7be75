import ScriptCompiler.Error
import ScriptCompiler.Ir.Assembly

/-!
# Building a function

A builder is a function under construction with the place where the next instruction goes. It hands
out registers, puts stack slots at the head of the entry block, and leaves out a conversion whose
result is known: one of a constant, and one that undoes the conversion that produced its operand.

Operations that always succeed are state transformers `Emit`. Moving to a block that may not exist
is the one that can fail.
-/

namespace ScriptCompiler.Ir

/-- A function under construction. -/
structure Builder where
  func : Func
  /-- The position of the block that receives instructions. -/
  current : Nat := 0
  /-- The next free register. -/
  nextReg : Nat
  /-- How many instructions stand at the head of the entry block by request. -/
  entryInsert : Nat := 0
  /-- The conversion and the operand behind every register that a conversion defines. -/
  casts : List (Reg × CastOp × Value) := []

/-- A step in building a function. -/
abbrev Emit := StateM Builder

namespace Builder

/-- A builder at the start of a function. Registers start after the parameters. -/
def ofFunc (f : Func) : Builder := { func := f, nextReg := f.params.length }

/-- The block that receives instructions. -/
def currentBlock? (b : Builder) : Option Block := b.func.blocks[b.current]?

/-- The label of the block that receives instructions. -/
def currentLabel (b : Builder) : String := (b.currentBlock?.map (·.label)).getD ""

/-- The block that receives instructions is complete. -/
def isTerminated (b : Builder) : Bool := (b.currentBlock?.map Block.isTerminated).getD false

/-- The builder with a block changed. -/
def modifyBlock (b : Builder) (index : Nat) (change : Block → Block) : Builder :=
  { b with func := { b.func with blocks := b.func.blocks.modify index change } }

/-- The builder with an instruction added to the current block. -/
def push (b : Builder) (i : Instr) : Builder := b.modifyBlock b.current (·.push i)

/-- The builder with an instruction added behind the others at the head of the entry block. -/
def pushEntry (b : Builder) (i : Instr) : Builder :=
  { b.modifyBlock 0 fun blk => { blk with instrs := blk.instrs.insertIdx b.entryInsert i } with
    entryInsert := b.entryInsert + 1 }

/-- The builder with an empty block added at the end. -/
def appendBlock (b : Builder) (label : String) : Builder :=
  { b with func := { b.func with blocks := b.func.blocks ++ [{ label }] } }

/-- The builder positioned at the end of the first block with a label. -/
def positionAtEnd (b : Builder) (label : String) : Except Error Builder :=
  match b.func.blocks.findIdx? (·.label = label) with
  | some index => .ok { b with current := index }
  | none => .error (.internal (.noBlock label))

end Builder

/-- The result of a conversion of a constant, when it is known without running it. -/
def foldConstant? (op : CastOp) (value : Value) (target : Ty) : Option Value :=
  match op, value.op with
  | .sitofp, .int v => some (.float (.ofInt v.toInt))
  | .uitofp, .int v =>
    if value.ty = .bool then some (.float (if v ≠ 0 then .one else .zero))
    else some (.float (.ofNat v.toUInt64.toNat))
  | .bitcast, .float v => if target = .i64 then some (.word v.bits.toInt64) else none
  | .bitcast, .int v => if target = .double then some (.float ⟨v.toUInt64⟩) else none
  | .ptrtoint, .null => some (.int target 0)
  | .inttoptr, .int v => if v = 0 then some .null else none
  | .zext, .int v => if value.ty = .bool then some (.int target (if v ≠ 0 then 1 else 0)) else none
  | _, _ => none

/-- The operand of the conversion behind a value, when `op` undoes that conversion. -/
def Builder.undone? (b : Builder) (op : CastOp) (value : Value) (target : Ty) : Option Value := do
  let r ← value.reg?
  let (source, operand) ← b.casts.lookup r
  if source.inverse? = some op ∧ operand.ty = target then some operand else none

namespace Emit

/-- Take the next register. -/
def fresh : Emit Reg := modifyGet fun b => (b.nextReg, { b with nextReg := b.nextReg + 1 })

/-- Add an instruction to the current block. -/
def push (i : Instr) : Emit Unit := modify (·.push i)

/-- Add an instruction that defines a register of the given type. -/
def define (ty : Ty) (instr : Reg → Instr) : Emit Value := do
  let dst ← fresh
  push (instr dst)
  return .reg dst ty

/-- Reserve a stack slot at the head of the entry block. -/
def alloca (ty : Ty) : Emit Value := do
  let dst ← fresh
  modify (·.pushEntry (.alloca dst ty))
  return .reg dst .ptr

/-- Reserve a stack slot at the head of the entry block and store a value there at once. -/
def allocaWith (ty : Ty) (init : Value) : Emit Value := do
  let slot ← alloca ty
  modify (·.pushEntry (.store init slot))
  return slot

/-- Read memory. -/
def load (ty : Ty) (ptr : Value) : Emit Value := define ty (.load · ty ptr)

/-- Write memory. -/
def store (value ptr : Value) : Emit Unit := push (.store value ptr)

/-- The address of an element. -/
def gep (element : Ty) (base index : Value) : Emit Value := define .ptr (.gep · element base index)

/-- An operation on two values. -/
def binary (op : BinOp) (lhs rhs : Value) : Emit Value := define lhs.ty (.binary · op lhs rhs)

/-- The negation of a double. -/
def fneg (operand : Value) : Emit Value := define .double (.fneg · operand)

/-- A comparison of doubles. -/
def fcmp (pred : FloatPred) (lhs rhs : Value) : Emit Value := define .bool (.fcmp · pred lhs rhs)

/-- A comparison of integers or addresses. -/
def icmp (pred : IntPred) (lhs rhs : Value) : Emit Value := define .bool (.icmp · pred lhs rhs)

/-- A conversion. A conversion of bits to the type they have already, a conversion of a constant and
one that undoes another give their result without an instruction. -/
def cast (op : CastOp) (value : Value) (target : Ty) : Emit Value := do
  if value.ty = target ∧ op = .bitcast then return value
  match foldConstant? op value target with
  | some folded => return folded
  | none =>
    match (← get).undone? op value target with
    | some operand => return operand
    | none =>
      let dst ← fresh
      modify fun b => { b with casts := (dst, op, value) :: b.casts }
      push (.cast dst op value target)
      return .reg dst target

/-- Call a function for its result. -/
def call (ret : Ty) (callee : String) (args : List Value) : Emit Value :=
  define ret fun dst => .call (some dst) ret callee args

/-- Call a function that returns nothing. -/
def callVoid (callee : String) (args : List Value) : Emit Unit :=
  push (.call none .void callee args)

/-- Jump. -/
def br (target : String) : Emit Unit := push (.br target)

/-- Jump to one of two labels. -/
def condBr (cond : Value) (thenLabel elseLabel : String) : Emit Unit :=
  push (.condBr cond thenLabel elseLabel)

/-- Return. -/
def ret (value : Option Value) : Emit Unit := push (.ret value)

end Emit

end ScriptCompiler.Ir
