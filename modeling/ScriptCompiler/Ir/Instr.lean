import ScriptCompiler.Ir.Ty
import ScriptCompiler.Number.Double

/-!
# Values and instructions

An instruction in typed single-assignment form. Every analysis goes through the same few views of an
instruction: the register it defines and that register's type, the values it reads, the labels it
may jump to, and the function it calls.
-/

namespace ScriptCompiler.Ir

/-- A virtual register. -/
abbrev Reg := Nat

/-- The text of a register. -/
def regText (r : Reg) : String := "%r" ++ toString r

/-- What an instruction reads. -/
inductive Operand where
  | reg (r : Reg)
  | int (value : Int64)
  | float (value : Double)
  | null
  /-- The address of a global. -/
  | global (name : String)
deriving DecidableEq

/-- An operand with the type it is used at. -/
structure Value where
  ty : Ty
  op : Operand
deriving DecidableEq

namespace Value

/-- A register. -/
def reg (r : Reg) (ty : Ty) : Value := ⟨ty, .reg r⟩

/-- A number. -/
def float (value : Double) : Value := ⟨.double, .float value⟩

/-- An integer of the given type. -/
def int (ty : Ty) (value : Int64) : Value := ⟨ty, .int value⟩

/-- A word. -/
def word (value : Int64) : Value := int .i64 value

/-- A truth value. -/
def bool (value : Bool) : Value := int .bool (if value then 1 else 0)

/-- The null address. -/
def null : Value := ⟨.ptr, .null⟩

/-- The address of a global. -/
def global (name : String) : Value := ⟨.ptr, .global name⟩

/-- The register that holds the value. -/
def reg? (v : Value) : Option Reg :=
  match v.op with
  | .reg r => some r
  | _ => none

/-- The global whose address the value is. -/
def global? (v : Value) : Option String :=
  match v.op with
  | .global name => some name
  | _ => none

/-- The value is known when the program is compiled. -/
def isConst (v : Value) : Bool :=
  match v.op with
  | .reg _ | .global _ => false
  | _ => true

/-- The text of a value without its type. A truth value is written as a word, a number by its bits.
-/
def text (v : Value) : String :=
  match v.op with
  | .reg r => regText r
  | .int value =>
    if v.ty = .bool then if value ≠ 0 then "true" else "false" else toString value.toInt
  | .float value => value.hexText
  | .null => "null"
  | .global name => "@" ++ name

/-- The text of a value with its type in front. -/
def typedText (v : Value) : String := v.ty.text ++ " " ++ v.text

end Value

/-- An operation on two values of one type. -/
inductive BinOp where
  | fadd | fsub | fmul | fdiv | frem
  | add | mul
  | and | or | xor
deriving DecidableEq

namespace BinOp

/-- Every operation. -/
def all : List BinOp := [.fadd, .fsub, .fmul, .fdiv, .frem, .add, .mul, .and, .or, .xor]

/-- The operation is on doubles. -/
def isFloat : BinOp → Bool
  | .fadd | .fsub | .fmul | .fdiv | .frem => true
  | _ => false

/-- The name of the operation. -/
def mnemonic : BinOp → String
  | .fadd => "fadd" | .fsub => "fsub" | .fmul => "fmul" | .fdiv => "fdiv" | .frem => "frem"
  | .add => "add" | .mul => "mul" | .and => "and" | .or => "or" | .xor => "xor"

/-- The operation with a given name. -/
def ofMnemonic? (name : String) : Option BinOp := all.find? (·.mnemonic = name)

end BinOp

/-- A comparison of doubles, each false when an operand is a NaN. -/
inductive FloatPred where
  | oeq | one | olt | ogt | ole | oge
deriving DecidableEq

namespace FloatPred

/-- Every comparison. -/
def all : List FloatPred := [.oeq, .one, .olt, .ogt, .ole, .oge]

/-- The name of the comparison. -/
def keyword : FloatPred → String
  | .oeq => "oeq" | .one => "one" | .olt => "olt" | .ogt => "ogt" | .ole => "ole" | .oge => "oge"

/-- The comparison with a given name. -/
def ofKeyword? (name : String) : Option FloatPred := all.find? (·.keyword = name)

end FloatPred

/-- A comparison of integers or addresses. -/
inductive IntPred where
  | eq | ne
deriving DecidableEq

namespace IntPred

/-- The name of the comparison. -/
def keyword : IntPred → String
  | .eq => "eq" | .ne => "ne"

/-- The comparison with a given name. -/
def ofKeyword? (name : String) : Option IntPred := [IntPred.eq, .ne].find? (·.keyword = name)

end IntPred

/-- A conversion between types. -/
inductive CastOp where
  /-- Unsigned integer to double. -/
  | uitofp
  /-- Signed integer to double. -/
  | sitofp
  /-- Double to signed integer. -/
  | fptosi
  /-- The same bits at another type. -/
  | bitcast
  /-- Address to integer. -/
  | ptrtoint
  /-- Integer to address. -/
  | inttoptr
  /-- Integer to a wider one, filled with zeros. -/
  | zext
  /-- Integer to a narrower one. -/
  | trunc
deriving DecidableEq

namespace CastOp

/-- Every conversion. -/
def all : List CastOp :=
  [.uitofp, .sitofp, .fptosi, .bitcast, .ptrtoint, .inttoptr, .zext, .trunc]

/-- The name of the conversion. -/
def mnemonic : CastOp → String
  | .uitofp => "uitofp" | .sitofp => "sitofp" | .fptosi => "fptosi" | .bitcast => "bitcast"
  | .ptrtoint => "ptrtoint" | .inttoptr => "inttoptr" | .zext => "zext" | .trunc => "trunc"

/-- The conversion with a given name. -/
def ofMnemonic? (name : String) : Option CastOp := all.find? (·.mnemonic = name)

/-- The conversion that undoes this one exactly. -/
def inverse? : CastOp → Option CastOp
  | .bitcast => some .bitcast
  | .ptrtoint => some .inttoptr
  | .inttoptr => some .ptrtoint
  | .zext => some .trunc
  | _ => none

/-- The conversion applies between the two types. -/
def fits (op : CastOp) (source target : Ty) : Bool :=
  match op with
  | .uitofp | .sitofp => source.isInt && target = .double
  | .fptosi => source = .double && target.isInt
  | .bitcast =>
    (source = .double && target = .i64) || (source = .i64 && target = .double) || source = target
  | .ptrtoint => source = .ptr && target.isInt
  | .inttoptr => source.isInt && target = .ptr
  | .zext | .trunc => source.isInt && target.isInt

end CastOp

/-- An instruction. -/
inductive Instr where
  /-- Reserve a stack slot. -/
  | alloca (dst : Reg) (ty : Ty)
  | load (dst : Reg) (ty : Ty) (ptr : Value)
  | store (value ptr : Value)
  /-- The address of an element of an array. -/
  | gep (dst : Reg) (element : Ty) (base index : Value)
  | binary (dst : Reg) (op : BinOp) (lhs rhs : Value)
  | fneg (dst : Reg) (operand : Value)
  | fcmp (dst : Reg) (pred : FloatPred) (lhs rhs : Value)
  | icmp (dst : Reg) (pred : IntPred) (lhs rhs : Value)
  | cast (dst : Reg) (op : CastOp) (value : Value) (target : Ty)
  /-- A call; without a destination when nothing is returned. -/
  | call (dst : Option Reg) (ret : Ty) (callee : String) (args : List Value)
  /-- Jump. -/
  | br (target : String)
  /-- Jump to one of two labels. -/
  | condBr (cond : Value) (thenLabel elseLabel : String)
  | ret (value : Option Value)
  /-- A place that control never reaches. -/
  | unreachable
deriving DecidableEq

namespace Instr

/-- The register that the instruction defines. -/
def dst? : Instr → Option Reg
  | .alloca dst .. | .load dst .. | .gep dst .. | .binary dst .. | .fneg dst ..
  | .fcmp dst .. | .icmp dst .. | .cast dst .. => some dst
  | .call dst .. => dst
  | _ => none

/-- The type of the register that the instruction defines. -/
def resultType? : Instr → Option Ty
  | .alloca .. | .gep .. => some .ptr
  | .load _ ty _ => some ty
  | .binary _ _ lhs _ => some lhs.ty
  | .fneg .. => some .double
  | .fcmp .. | .icmp .. => some .bool
  | .cast _ _ _ target => some target
  | .call (some _) result _ _ => some result
  | _ => none

/-- The values that the instruction reads, in order. -/
def operands : Instr → List Value
  | .alloca .. | .br .. | .unreachable => []
  | .load _ _ ptr => [ptr]
  | .store value ptr => [value, ptr]
  | .gep _ _ base index => [base, index]
  | .binary _ _ lhs rhs | .fcmp _ _ lhs rhs | .icmp _ _ lhs rhs => [lhs, rhs]
  | .fneg _ operand => [operand]
  | .cast _ _ value _ => [value]
  | .call _ _ _ args => args
  | .condBr cond _ _ => [cond]
  | .ret value => value.toList

/-- The instruction ends a block. -/
def isTerminator : Instr → Bool
  | .br .. | .condBr .. | .ret .. | .unreachable => true
  | _ => false

/-- The labels that control may go to. -/
def successors : Instr → List String
  | .br target => [target]
  | .condBr _ thenLabel elseLabel => [thenLabel, elseLabel]
  | _ => []

/-- The function that the instruction calls. -/
def callee? : Instr → Option String
  | .call _ _ callee _ => some callee
  | _ => none

/-- The text of an instruction. -/
def text : Instr → String
  | .alloca dst ty => regText dst ++ " = alloca " ++ ty.text
  | .load dst ty ptr => regText dst ++ " = load " ++ ty.text ++ ", ptr " ++ ptr.text
  | .store value ptr => "store " ++ value.typedText ++ ", ptr " ++ ptr.text
  | .gep dst element base index =>
    regText dst ++ " = getelementptr " ++ element.text ++ ", ptr " ++ base.text ++ ", "
      ++ index.typedText
  | .binary dst op lhs rhs =>
    regText dst ++ " = " ++ op.mnemonic ++ " " ++ lhs.typedText ++ ", " ++ rhs.text
  | .fneg dst operand => regText dst ++ " = fneg double " ++ operand.text
  | .fcmp dst pred lhs rhs =>
    regText dst ++ " = fcmp " ++ pred.keyword ++ " double " ++ lhs.text ++ ", " ++ rhs.text
  | .icmp dst pred lhs rhs =>
    regText dst ++ " = icmp " ++ pred.keyword ++ " " ++ lhs.typedText ++ ", " ++ rhs.text
  | .cast dst op value target =>
    regText dst ++ " = " ++ op.mnemonic ++ " " ++ value.typedText ++ " to " ++ target.text
  | .call dst result callee args =>
    (match dst with
      | some dst => regText dst ++ " = "
      | none => "")
      ++ "call " ++ result.text ++ " @" ++ callee ++ "("
      ++ Text.joined ", " (args.map Value.typedText) ++ ")"
  | .br target => "br label %" ++ target
  | .condBr cond thenLabel elseLabel =>
    "br i1 " ++ cond.text ++ ", label %" ++ thenLabel ++ ", label %" ++ elseLabel
  | .ret (some value) => "ret " ++ value.typedText
  | .ret none => "ret void"
  | .unreachable => "unreachable"

end Instr

end ScriptCompiler.Ir
