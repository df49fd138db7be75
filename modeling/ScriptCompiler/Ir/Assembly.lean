import ScriptCompiler.Ir.Instr

/-!
# Blocks, functions and assemblies

An assembly is what one compilation produces and the back end takes: record types, globals,
declarations of functions defined elsewhere, and functions. Its text is written in the back end's
assembly language, and depends on nothing but the assembly.
-/

namespace ScriptCompiler.Ir

/-- A labelled run of instructions. -/
structure Block where
  label : String
  instrs : List Instr := []
deriving DecidableEq

namespace Block

/-- The last instruction, if it ends a block. -/
def terminator? (b : Block) : Option Instr :=
  b.instrs.getLast?.filter Instr.isTerminator

/-- The block is complete. -/
def isTerminated (b : Block) : Bool := b.terminator?.isSome

/-- The block with one more instruction at its end. -/
def push (b : Block) (i : Instr) : Block := { b with instrs := b.instrs ++ [i] }

end Block

/-- Who can see a symbol. -/
inductive Visibility where
  /-- Every object that is linked. -/
  | external
  /-- This object. -/
  | internal
  /-- This object, without an entry in its symbol table. -/
  | hidden
deriving DecidableEq

/-- The keyword of a visibility with the blank that follows it; none for the default. -/
def Visibility.keyword : Visibility → String
  | .external => ""
  | .internal => "internal "
  | .hidden => "private "

/-- The initial value of a global. -/
inductive Init where
  | float (value : Double)
  | int (value : Int64)
  | null
  /-- All zeros. -/
  | zero
  | bytes (values : List UInt8)
deriving DecidableEq

/-- A global variable or constant. -/
structure Global where
  name : String
  ty : Ty
  visibility : Visibility
  /-- `none` when the global is defined in another object. -/
  init : Option Init
  constant : Bool := false
deriving DecidableEq

/-- The global is defined in another object. -/
def Global.isDeclaration (g : Global) : Bool := g.init.isNone

/-- The name and type of a function. -/
structure Signature where
  name : String
  ret : Ty
  params : List Ty
deriving DecidableEq

/-- The text of a signature. -/
def Signature.text (s : Signature) : String :=
  s.ret.text ++ " @" ++ s.name ++ "(" ++ Ty.listText s.params ++ ")"

/-- A function. Each parameter is a register with its type. -/
structure Func where
  name : String
  ret : Ty
  params : List (Reg × Ty)
  visibility : Visibility := .external
  blocks : List Block
deriving DecidableEq

namespace Func

/-- A function with nothing but an empty entry block. Its parameters are the registers from zero on. -/
def skeleton (name : String) (ret : Ty) (params : List Ty) : Func :=
  { name, ret, params := params.zipIdx.map Prod.swap, blocks := [{ label := "entry" }] }

/-- The registers of the parameters. -/
def paramRegs (f : Func) : List Reg := f.params.map Prod.fst

/-- The parameters as values. -/
def paramValues (f : Func) : List Value :=
  f.params.map fun (r, ty) => .reg r ty

/-- The first block with a label. -/
def block? (f : Func) (label : String) : Option Block :=
  f.blocks.find? (·.label = label)

/-- All instructions in the order of the text. -/
def instrs (f : Func) : List Instr := f.blocks.flatMap (·.instrs)

/-- The called functions in the order of the text. -/
def calls (f : Func) : List String := f.instrs.filterMap Instr.callee?

/-- How many calls of `callee` there are. -/
def countCalls (f : Func) (callee : String) : Nat := f.calls.count callee

/-- The name and type of a function. -/
def signature (f : Func) : Signature := ⟨f.name, f.ret, f.params.map Prod.snd⟩

/-- The parameters of a skeleton are numbered from zero on. -/
theorem paramRegs_skeleton (name : String) (ret : Ty) (params : List Ty) :
    (skeleton name ret params).paramRegs = List.range params.length := by
  simp [skeleton, paramRegs, Function.comp_def, List.range_eq_range']

/-- A skeleton has the types that it was given. -/
theorem signature_skeleton (name : String) (ret : Ty) (params : List Ty) :
    (skeleton name ret params).signature = ⟨name, ret, params⟩ := by
  simp [skeleton, signature, Function.comp_def]

end Func

/-- The result of one compilation. -/
structure Assembly where
  name : String
  triple : String
  types : List StructType := []
  globals : List Global := []
  declarations : List Signature := []
  functions : List Func := []
deriving DecidableEq

namespace Assembly

/-- The first global with a name. -/
def global? (a : Assembly) (name : String) : Option Global := a.globals.find? (·.name = name)

/-- The first function with a name. -/
def function? (a : Assembly) (name : String) : Option Func := a.functions.find? (·.name = name)

/-- The first declaration with a name. -/
def declaration? (a : Assembly) (name : String) : Option Signature :=
  a.declarations.find? (·.name = name)

/-- The signature of a function that is defined, or else declared. -/
def signature? (a : Assembly) (name : String) : Option Signature :=
  ((a.function? name).map Func.signature).or (a.declaration? name)

/-- The name belongs to a global, a function or a declaration. -/
def hasSymbol (a : Assembly) (name : String) : Bool :=
  (a.global? name).isSome || (a.function? name).isSome || (a.declaration? name).isSome

/-- The assembly with a declaration added, unless one of that name is there already. -/
def declare (a : Assembly) (s : Signature) : Assembly :=
  if (a.declaration? s.name).isSome then a
  else { a with declarations := a.declarations ++ [s] }

/-- The assembly with a global added. -/
def addGlobal (a : Assembly) (g : Global) : Assembly := { a with globals := a.globals ++ [g] }

/-- The assembly with a function added. -/
def addFunction (a : Assembly) (f : Func) : Assembly := { a with functions := a.functions ++ [f] }

/-- How many instructions there are in all functions. -/
def instrCount (a : Assembly) : Nat := (a.functions.flatMap Func.instrs).length

end Assembly

/-! ## Text -/

/-- A byte in a string constant: printable ASCII as it is, all else as a backslash and two digits.
-/
def escapeByte (b : UInt8) : List Char :=
  if b = 0x22 ∨ b = 0x5C ∨ b < 0x20 ∨ 0x7F ≤ b then '\\' :: Text.hexDigits 2 b.toNat
  else [Char.ofNat b.toNat]

/-- The contents of a string constant between its quotes. -/
def escapeBytes (bytes : List UInt8) : String :=
  String.ofList (bytes.flatMap escapeByte)

/-- The text of an initial value. -/
def Init.text : Init → String
  | .float value => value.hexText
  | .int value => toString value.toInt
  | .null => "null"
  | .zero => "zeroinitializer"
  | .bytes values => "c\"" ++ escapeBytes values ++ "\""

/-- The line of a global. -/
def Global.text (g : Global) : String :=
  match g.init with
  | none => "@" ++ g.name ++ " = external global " ++ g.ty.text
  | some init =>
    let unnamed := match init with
      | .bytes _ => "unnamed_addr "
      | _ => ""
    let kind := if g.constant then "constant" else "global"
    "@" ++ g.name ++ " = " ++ g.visibility.keyword ++ unnamed ++ kind ++ " " ++ g.ty.text ++ " "
      ++ init.text

/-- The lines of a block. -/
def Block.text (b : Block) : String :=
  Text.lines ((b.label ++ ":") :: b.instrs.map fun i => "  " ++ i.text)

/-- The lines of a function, with an empty line between blocks. -/
def Func.text (f : Func) : String :=
  let params := f.params.map fun (r, ty) => ty.text ++ " " ++ regText r
  "define " ++ f.visibility.keyword ++ f.ret.text ++ " @" ++ f.name ++ "("
    ++ Text.joined ", " params ++ ") nounwind \x7b\n"
    ++ Text.joined "\n" (f.blocks.map Block.text) ++ "\x7d\n"

/-- The line of a record type. -/
def StructType.text (s : StructType) : String :=
  "%" ++ s.name ++ " = type \x7b " ++ Ty.listText s.fields ++ " \x7d"

/-- Lines set off by an empty line in front, nothing when there are none. -/
def paragraph (parts : List String) : String :=
  if parts.isEmpty then "" else "\n" ++ Text.lines parts

/-- The text of an assembly. -/
def Assembly.text (a : Assembly) : String :=
  Text.lines ["; ModuleID = '" ++ a.name ++ "'", "source_filename = \"" ++ a.name ++ "\"",
      "target triple = \"" ++ a.triple ++ "\""]
    ++ paragraph (a.types.map StructType.text)
    ++ paragraph (a.globals.map Global.text)
    ++ paragraph (a.declarations.map fun s => "declare " ++ s.text)
    ++ String.join (a.functions.map fun f => "\n" ++ f.text)

end ScriptCompiler.Ir
