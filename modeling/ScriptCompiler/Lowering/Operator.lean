import ScriptCompiler.Lowering.State

/-!
# Operators

The operators of the language on values that are already computed. An operand that is a string makes
the operation one on strings; all other operands are taken as numbers, or as truth values for `and`,
`or` and `not`.
-/

namespace ScriptCompiler.Lowering

open Ir (BinOp Emit FloatPred Value)

/-- The operation behind an arithmetic operator. -/
def arithmetic? : String → Option BinOp
  | "+" => some .fadd
  | "-" => some .fsub
  | "*" => some .fmul
  | "/" => some .fdiv
  | "%" => some .frem
  | _ => none

/-- The comparison behind a relational operator. -/
def comparison? : String → Option FloatPred
  | "=" => some .oeq
  | "!=" => some .one
  | "<" => some .olt
  | ">" => some .ogt
  | "<=" => some .ole
  | ">=" => some .oge
  | _ => none

/-- The operation behind a logical operator. -/
def logic? : String → Option BinOp
  | "and" => some .and
  | "or" => some .or
  | _ => none

/-- A number as a new string. -/
def numberText (v : Typed) : Lower Value := do
  let scalar ← toScalar v
  allocate Catalog.numberToString [scalar] Catalog.stringDestroy

/-- An operand of an operation on strings. A word is taken for a string, and a number is written
out. -/
def asText (v : Typed) : Lower Value := do
  match v.kind with
  | .text => return v.value
  | .packed => return (← perform (coerce v .text)).value
  | .scalar | .tracked => numberText v
  | .list | .struct _ => refuse "+" ("cannot combine " ++ v.kind.title ++ " with a string")

/-- The two strings joined. -/
def concat (lhs rhs : Typed) : Lower Typed := do
  let l ← asText lhs
  let r ← asText rhs
  return .text (← allocate Catalog.stringConcat [l, r] Catalog.stringDestroy)

/-- The kind may be that of a string. -/
def Kind.isTextual : Kind → Bool
  | .text | .packed => true
  | _ => false

/-- Whether two values are the same string, or, when `negated`, are not. A string is never the same
as a number. -/
def textEquality (negated : Bool) (lhs rhs : Typed) : Lower Typed := do
  if lhs.kind.isTextual && rhs.kind.isTextual then
    let l ← asText lhs
    let r ← asText rhs
    let same ← Emit.call .i64 Catalog.stringEquals [l, r]
    return .scalar (← Emit.icmp (if negated then .eq else .ne) same (.word 0))
  else return .scalar (.bool negated)

/-- An operation of which an operand is a string. -/
def textBinary (op : String) (lhs rhs : Typed) : Lower Typed :=
  match op with
  | "+" => concat lhs rhs
  | "=" => textEquality false lhs rhs
  | "!=" => textEquality true lhs rhs
  | _ => refuse op "strings support only: + = !="

/-- An operation on two values without strings. -/
def plainBinary (op : String) (lhs rhs : Typed) : Lower Typed := do
  match arithmetic? op, comparison? op, logic? op with
  | some bin, _, _ =>
    let l ← toScalar lhs
    let r ← toScalar rhs
    return .scalar (← Emit.binary bin l r)
  | none, some pred, _ =>
    let l ← toScalar lhs
    let r ← toScalar rhs
    return .scalar (← Emit.fcmp pred l r)
  | none, none, some bin =>
    let l ← perform (toBoolean lhs)
    let r ← perform (toBoolean rhs)
    return .scalar (← Emit.binary bin l r)
  | none, none, none =>
    refuse op "supported operators: + - * / % = != < > <= >= and or"

/-- An operation on two values. -/
def binary (op : String) (lhs rhs : Typed) : Lower Typed :=
  if lhs.kind = .text || rhs.kind = .text then textBinary op lhs rhs
  else plainBinary op lhs rhs

/-- An operation on one value. -/
def unary (op : String) (operand : Typed) : Lower Typed := do
  match op with
  | "not" =>
    let flag ← perform (toBoolean operand)
    return .scalar (← Emit.binary .xor flag (.bool true))
  | "-" =>
    let scalar ← toScalar operand
    return .scalar (← Emit.fneg scalar)
  | _ => refuse op "supported unary operators: not -"

/-- The position that an index stands for. -/
def toPosition (index : Typed) : Emit Value := do
  Emit.cast .fptosi (← toScalar index) .i64

/-- The element of a list or the code of a character of a string. An element is a word. -/
def elementAt (target : Typed) (position : Value) : Lower Typed := do
  match target.kind with
  | .text =>
    let code ← Emit.call .i64 Catalog.charAt [target.value, position]
    return .scalar (← Emit.cast .sitofp code .double)
  | .list | .packed =>
    let list ← perform (coerce target .list)
    let element ← Emit.call .double Catalog.listGet [list.value, position]
    return .packed (← Emit.cast .bitcast element .i64)
  | other => refuse "[]" ("indexing applies to lists and strings, not " ++ other.title)

end ScriptCompiler.Lowering
