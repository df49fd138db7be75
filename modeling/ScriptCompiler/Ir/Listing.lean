import ScriptCompiler.Catalog
import ScriptCompiler.Number.Shortest

/-!
# Listings and profiles

A listing shows an assembly for reading rather than for the back end: instructions are numbered, and
constants are written as numbers. A profile counts calls and allocations.
-/

namespace ScriptCompiler.Ir

/-- A value in a listing. -/
def Value.listed (v : Value) : String :=
  match v.op with
  | .reg r => "r" ++ toString r
  | .int value => toString value.toInt
  | .float value => value.format .listing
  | .null => "null"
  | .global name => "@" ++ name

/-- An instruction in a listing. -/
def Instr.listed : Instr → String
  | .alloca dst ty => s!"r{dst} = alloca {ty.text}"
  | .load dst ty ptr => s!"r{dst} = ({ty.text})[{ptr.listed}]"
  | .store value ptr => s!"[{ptr.listed}] = {value.listed}:{value.ty.text}"
  | .gep dst element base index =>
    s!"r{dst} = &{base.listed}[{index.listed} x {element.text}]"
  | .binary dst op lhs rhs => s!"r{dst} = {op.mnemonic} {lhs.listed}, {rhs.listed}"
  | .fneg dst operand => s!"r{dst} = -{operand.listed}"
  | .fcmp dst pred lhs rhs => s!"r{dst} = {lhs.listed} {pred.keyword} {rhs.listed}"
  | .icmp dst pred lhs rhs => s!"r{dst} = {lhs.listed} {pred.keyword} {rhs.listed}"
  | .cast dst op value target =>
    s!"r{dst} = {op.mnemonic} {value.listed} -> {target.text}"
  | .call dst _ callee args =>
    let result := match dst with
      | some dst => s!"r{dst} = "
      | none => ""
    result ++ "call " ++ callee ++ "(" ++ Text.joined ", " (args.map Value.listed) ++ ")"
  | .br target => "jmp " ++ target
  | .condBr cond thenLabel elseLabel => s!"jif {cond.listed} -> {thenLabel} | {elseLabel}"
  | .ret (some value) => "ret " ++ value.listed
  | .ret none => "ret"
  | .unreachable => "unreachable"

/-- A number in at least four digits. -/
def fourDigits (n : Nat) : String :=
  let digits := Nat.toDigits 10 n
  String.ofList (List.replicate (4 - digits.length) '0' ++ digits)

/-- The lines of the blocks of a function, the instructions numbered from `index` on. -/
def listedBlocks (index : Nat) : List Block → List String
  | [] => []
  | b :: rest =>
    (b.label ++ ":")
      :: b.instrs.zipIdx.map (fun (i, k) => fourDigits (index + k) ++ ":   " ++ i.listed)
      ++ listedBlocks (index + b.instrs.length) rest

/-- The double line that frames a listing. -/
def doubleRule : String := String.ofList (List.replicate 59 '═')

/-- The line above a function. -/
def singleRule : String := String.ofList (List.replicate 59 '─')

/-- The lines of a function. -/
def Func.listed (f : Func) : List String :=
  [singleRule, s!"fn {f.name}({Ty.listText f.signature.params}) -> {f.ret.text}"]
    ++ listedBlocks 0 f.blocks

/-- The listing of an assembly. -/
def Assembly.listed (a : Assembly) : String :=
  Text.lines ([doubleRule, String.ofList (List.replicate 20 ' ') ++ "IR DUMP", doubleRule,
      s!"Module: {a.name} ({a.triple})", s!"Globals: {a.globals.length}",
      s!"Declarations: {a.declarations.length}"]
    ++ a.functions.flatMap Func.listed ++ [doubleRule, ""])

/-- Calls and allocations of an assembly. -/
structure Profile where
  /-- The called functions in rising order, each with the number of its calls. -/
  calls : List (String × Nat)
  /-- Calls that reserve memory. -/
  allocations : Nat
  /-- Calls that free memory. -/
  releases : Nat
  /-- Stack slots. -/
  allocas : Nat

/-- The instruction reserves a stack slot. -/
def Instr.isAlloca : Instr → Bool
  | .alloca .. => true
  | _ => false

/-- The profile of an assembly. -/
def Assembly.profile (a : Assembly) : Profile :=
  let calls := a.functions.flatMap Func.calls
  { calls := (Text.sortedNames calls).map fun name => (name, calls.count name)
    allocations := calls.countP (· ∈ Catalog.allocating)
    releases := calls.countP (· ∈ Catalog.releasing)
    allocas := (a.functions.flatMap Func.instrs).countP Instr.isAlloca }

end ScriptCompiler.Ir
