import ScriptCompiler.Lowering.Call

/-!
# Expressions

The lowering of an expression, by recursion on its tree. Each form hands the steps of its parts, not
yet run, to the step of the form itself, which decides when to run them; so the recursion is on the
tree alone, and every rule of the language stands in the modules before this one.
-/

namespace ScriptCompiler.Lowering

/-- Refuse a statement where a value is needed. -/
def notAnExpression (kind : Node.Kind) : Lower Typed :=
  throw (.internal (.notAnExpression kind.title))

mutual

/-- The steps that compute an expression. -/
def expr : Node → Lower Typed
  | .literal value => literal value
  | .identifier name => identifier name
  | .binary op left right => do
    let lhs ← expr left
    let rhs ← expr right
    binary op lhs rhs
  | .unary op operand => do
    let v ← expr operand
    unary op v
  | .listLiteral elements => listOf (exprs elements)
  | .index list index => do
    let target ← expr list
    let position ← expr index
    let position ← toPosition position
    elementAt target position
  | .memberAccess (.identifier name) member => memberOf name member
  | .memberAccess object member => do
    let object ← expr object
    fieldOf object member
  | .structLiteral name args => structOf name (exprs args)
  | .interrogative word target => answer word (expr target)
  | .relation (.identifier name) argument =>
    applyName name ⟨expr argument, writtenElements argument⟩
  | .relation (.memberAccess (.identifier module) member) argument =>
    applyMember module member ⟨expr argument, writtenElements argument⟩
  | .relation _ _ => applyOther
  | .assignment .. => notAnExpression .assignment
  | .indexedAssignment .. => notAnExpression .indexedAssignment
  | .functionDef .. => notAnExpression .functionDef
  | .ret _ => notAnExpression .ret
  | .breakLoop => notAnExpression .breakLoop
  | .conditional .. => notAnExpression .conditional
  | .loop .. => notAnExpression .loop
  | .structDef .. => notAnExpression .structDef
  | .importModule _ => notAnExpression .importModule

/-- The steps of each of several expressions. -/
def exprs : List Node → List (Lower Typed)
  | [] => []
  | node :: rest => expr node :: exprs rest

/-- The steps of the elements of an expression that is written as a list. -/
def writtenElements : Node → Option (List (Lower Typed))
  | .listLiteral elements => some (exprs elements)
  | _ => none

end

end ScriptCompiler.Lowering
