import ScriptCompiler.Number.Shortest
import ScriptCompiler.Text.Names
import ScriptCompiler.Text.Quoted

/-!
# The tree of a program

Statements and expressions share one type of node, as the analyser hands them over; which of them
may stand where is the compiler's to say. `reads` lists the variables that a node looks up, and
`display` is the short form in which a node is quoted.
-/

namespace ScriptCompiler

/-- A constant. -/
inductive Literal where
  | number (value : Double)
  | text (value : String)
  | null
deriving DecidableEq

/-- A statement or an expression. -/
inductive Node where
  | literal (value : Literal)
  /-- A variable. -/
  | identifier (name : String)
  | binary (op : String) (left right : Node)
  | unary (op : String) (operand : Node)
  /-- `name is value`. -/
  | assignment (name : String) (value : Node)
  /-- `target[index] is value`. -/
  | indexedAssignment (target index value : Node)
  /-- `define name as: body`. -/
  | functionDef (name : String) (params : List String) (body : List Node)
  /-- Leave the function, or the program. -/
  | ret (value : Option Node)
  /-- Leave the innermost loop. -/
  | breakLoop
  | conditional (condition : Node) (thenBlock elseBlock : List Node)
  /-- `loop while condition: body`. -/
  | loop (condition : Node) (body : List Node)
  | listLiteral (elements : List Node)
  /-- `list[index]`. -/
  | index (list index : Node)
  /-- `object.member`, a field of a struct or a member of a module. -/
  | memberAccess (object : Node) (member : String)
  | structDef (name : String) (fields : List String)
  | structLiteral (name : String) (args : List Node)
  /-- `word is target`, a question about a variable's history. -/
  | interrogative (word : String) (target : Node)
  /-- `callee of argument`, an application. -/
  | relation (callee argument : Node)
  | importModule (module : String)

namespace Node

/-- The shape of a node, without its contents. -/
inductive Kind where
  | literal
  | identifier
  | binary
  | unary
  | assignment
  | indexedAssignment
  | functionDef
  | ret
  | breakLoop
  | conditional
  | loop
  | listLiteral
  | index
  | memberAccess
  | structDef
  | structLiteral
  | interrogative
  | relation
  | importModule
deriving DecidableEq

/-- The kind of a node. -/
def kind : Node → Kind
  | literal .. => .literal
  | identifier .. => .identifier
  | binary .. => .binary
  | unary .. => .unary
  | assignment .. => .assignment
  | indexedAssignment .. => .indexedAssignment
  | functionDef .. => .functionDef
  | ret .. => .ret
  | breakLoop => .breakLoop
  | conditional .. => .conditional
  | loop .. => .loop
  | listLiteral .. => .listLiteral
  | index .. => .index
  | memberAccess .. => .memberAccess
  | structDef .. => .structDef
  | structLiteral .. => .structLiteral
  | interrogative .. => .interrogative
  | relation .. => .relation
  | importModule .. => .importModule

/-- The name of a kind in messages. -/
def Kind.title : Kind → String
  | .literal => "Literal"
  | .identifier => "Identifier"
  | .binary => "BinaryOp"
  | .unary => "UnaryOp"
  | .assignment => "Assignment"
  | .indexedAssignment => "IndexedAssignment"
  | .functionDef => "FunctionDef"
  | .ret => "Return"
  | .breakLoop => "Break"
  | .conditional => "Conditional"
  | .loop => "Loop"
  | .listLiteral => "ListLiteral"
  | .index => "Index"
  | .memberAccess => "MemberAccess"
  | .structDef => "StructDef"
  | .structLiteral => "StructLiteral"
  | .interrogative => "Interrogative"
  | .relation => "Relation"
  | .importModule => "Import"

/-- The name of a node's kind in messages. -/
def title (n : Node) : String := n.kind.title

mutual

/-- The variables that a node reads, in the order of the text, repetitions included. The target of
an assignment is not read, and neither is the bare name of a function that is called. -/
def reads : Node → List String
  | .literal _ | .breakLoop | .importModule _ | .structDef .. => []
  | .identifier name => [name]
  | .binary _ left right => left.reads ++ right.reads
  | .unary _ operand => operand.reads
  | .assignment _ value => value.reads
  | .indexedAssignment target position value => target.reads ++ position.reads ++ value.reads
  | .functionDef _ _ body => readsAll body
  | .ret value => readsOption value
  | .conditional condition thenBlock elseBlock =>
    condition.reads ++ readsAll thenBlock ++ readsAll elseBlock
  | .loop condition body => condition.reads ++ readsAll body
  | .listLiteral elements => readsAll elements
  | .index list position => list.reads ++ position.reads
  | .memberAccess object _ => object.reads
  | .structLiteral _ args => readsAll args
  | .interrogative _ target => target.reads
  | .relation (.identifier _) argument => argument.reads
  | .relation callee argument => callee.reads ++ argument.reads

/-- The variables that several nodes read. -/
def readsAll : List Node → List String
  | [] => []
  | n :: rest => n.reads ++ readsAll rest

/-- The variables that an optional node reads. -/
def readsOption : Option Node → List String
  | none => []
  | some n => n.reads

end

/-- The distinct variables that a node reads, sorted. -/
def readNames (n : Node) : List String := Text.sortedNames n.reads

/-- The short form of a node: operators, members and applications in full, other composites by the
title of their kind. -/
def display : Node → String
  | .literal (.number value) => value.format .plain
  | .literal (.text value) => Text.quoted value
  | .literal .null => "null"
  | .identifier name => name
  | .binary op left right => s!"({left.display} {op} {right.display})"
  | .unary op operand => s!"({op} {operand.display})"
  | .memberAccess object member => s!"{object.display}.{member}"
  | .relation callee argument => s!"({callee.display} of {argument.display})"
  | other => s!"<{other.title}>"

end Node

end ScriptCompiler
