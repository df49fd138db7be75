import ScriptCompiler.Lowering.Assign
import ScriptCompiler.Lowering.Expr

/-!
# Statements

The lowering of a statement, by recursion on its tree, with the steps of its parts handed over as
for expressions. Every way out of a program goes through one block at the end of its entry function.
Code behind a `break` or a `return` goes to a block of its own that nothing jumps to.
-/

namespace ScriptCompiler.Lowering

open Ir (Emit)

/-- The label of the last block of a program. -/
def exitLabel : String := "exit"

/-- Continue where control never comes. -/
def openDeadBlock : Lower Unit := do
  openBlock (← freshLabel "dead")

/-- Leave the function, the program or the initializer with a value that is computed. -/
def leaveWith (value : Option Typed) : Lower Unit := do
  match (← get).scope with
  | .function =>
    match value with
    | some v =>
      let v ← byValue v
      let word ← pack v
      Emit.ret (some word)
    | none => Emit.ret (some (.word 0))
  | .topLevel =>
    if (← read).naming.isLibrary then Emit.ret none else Emit.br exitLabel
  openDeadBlock

/-- Leave the function, the program or the initializer. -/
def leave (value : Option (Lower Typed)) : Lower Unit := do
  let value ← match value with
    | some value => some <$> value
    | none => pure none
  leaveWith value

/-- Leave the innermost loop. -/
def leaveLoop : Lower Unit := do
  match (← get).loopEnds with
  | loopEnd :: _ =>
    Emit.br loopEnd
    openDeadBlock
  | [] =>
    throw (.breakOutsideLoop (some "'break' can only be used inside a 'loop while' body"))

/-- One of two blocks. -/
def conditional (condition : Lower Typed) (thenBlock elseBlock : Lower Unit) : Lower Unit := do
  let flag ← perform (toBoolean (← condition))
  let thenLabel ← freshLabel "if_then"
  let elseLabel ← freshLabel "if_else"
  let mergeLabel ← freshLabel "if_merge"
  Emit.condBr flag thenLabel elseLabel
  openBlock thenLabel
  thenBlock
  fallThrough mergeLabel
  openBlock elseLabel
  elseBlock
  fallThrough mergeLabel
  openBlock mergeLabel

/-- A block as long as a condition holds, which is tested before every pass. -/
def loopWhile (condition : Lower Typed) (body : Lower Unit) : Lower Unit := do
  let condLabel ← freshLabel "loop_cond"
  let bodyLabel ← freshLabel "loop_body"
  let endLabel ← freshLabel "loop_end"
  Emit.br condLabel
  openBlock condLabel
  let flag ← perform (toBoolean (← condition))
  Emit.condBr flag bodyLabel endLabel
  openBlock bodyLabel
  modify fun s => { s with loopEnds := endLabel :: s.loopEnds }
  body
  modify fun s => { s with loopEnds := s.loopEnds.tail }
  fallThrough condLabel
  openBlock endLabel

/-- Take note of a function; its body is lowered after the entry function. -/
def defineFunction (name : String) (params : List String) (body : List Node) : Lower Unit := do
  match (← get).scope with
  | .topLevel =>
    let symbol := (← read).naming.functionSymbol name
    modify (·.addRoutine { name, symbol, params, body })
  | .function => throw (.internal (.nestedFunction name))

/-- Take note of a struct type. -/
def defineStruct (name : String) (fields : List String) : Lower Unit :=
  modify fun s => { s with structs := Table.set s.structs name fields }

mutual

/-- The steps that carry out a statement. An import is none: it is resolved before. -/
def stmt : Node → Lower Unit
  | .assignment name value => do
    let v ← expr value
    assign name v
  | .indexedAssignment target index value => assignElement (expr target) (expr index) (expr value)
  | .functionDef name params body => defineFunction name params body
  | .structDef name fields => defineStruct name fields
  | .ret value => leave (value.map expr)
  | .breakLoop => leaveLoop
  | .conditional condition thenBlock elseBlock =>
    conditional (expr condition) (block thenBlock) (block elseBlock)
  | .loop condition body => loopWhile (expr condition) (block body)
  | .importModule _ => return
  | node => discard (expr node)

/-- The steps that carry out statements one after the other. -/
def block : List Node → Lower Unit
  | [] => return
  | node :: rest => do
    stmt node
    block rest

end

end ScriptCompiler.Lowering
