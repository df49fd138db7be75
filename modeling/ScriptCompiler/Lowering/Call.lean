import ScriptCompiler.Lowering.Access
import ScriptCompiler.Lowering.Operator

/-!
# Applications

`callee of argument` applies a function of the unit, a predicate, a builtin, or a function of
another module, looked for in this order. An argument that is written as a list may stand for
several arguments.
-/

namespace ScriptCompiler.Lowering

open Ir (Emit Value)

/-- The argument of an application, still to be computed. -/
structure Argument where
  /-- As one value. -/
  whole : Lower Typed
  /-- As the elements of a list, when it is written as one. -/
  elements : Option (List (Lower Typed))

/-- The values of an argument. With `spread` the elements of a written list count as separate
values. -/
def Argument.values (a : Argument) (spread : Bool) : Lower (List Typed) := do
  match a.elements, spread with
  | some elements, true => elements.mapM id
  | _, _ => return [← a.whole]

/-- An argument is written as a list of two elements or more. -/
def Argument.isSeveral (a : Argument) : Bool := 1 < (a.elements.getD []).length

/-- Call a function with words. Arguments are passed by value and made to fit the arity; the result
is a word. -/
def callFunction (symbol callee : String) (arity : Nat) (args : List Typed) : Lower Typed := do
  let slots ← emit (args.mapM fun arg => do Slot.ofTyped (← byValue arg))
  match (Fit.of args.length arity).warning? callee args.length arity with
  | some message => warn message
  | none => pure ()
  let words ← emit ((fitted slots arity).mapM Slot.erase)
  return .packed (← Emit.call .i64 symbol words)

/-- Call a function of the unit, under the name that warnings show. -/
def callRoutine (r : Routine) (callee : String) (a : Argument) : Lower Typed := do
  let arity := r.params.length
  let args ← a.values (1 < arity)
  callFunction r.symbol callee arity args

/-- Call a function by its symbol: one of the unit, or else an external one. -/
def callExternal (symbol : String) (a : Argument) : Lower Typed := do
  match (← get).routineOf? symbol with
  | some r => callRoutine r symbol a
  | none =>
    let args ← a.values a.isSeveral
    let s ← get
    let (arity, externals, assembly) ← s.externals.useFunction s.assembly symbol args.length
    modify fun s => { s with externals, assembly }
    callFunction symbol symbol arity args

/-- A predicate of a value; false of one without a history. -/
def predicateOf (check : String) (a : Argument) : Lower Typed := do
  let subject ← a.whole
  if subject.kind = .tracked then return .scalar (← Emit.call .bool check [subject.value])
  else return .scalar (.bool false)

/-! ## Builtins -/

/-- Print a number or a string. -/
def print (v : Typed) : Lower Typed := do
  match v.kind with
  | .text => Emit.callVoid Catalog.printString [v.value]
  | .tracked =>
    let scalar ← toScalar v
    Emit.callVoid Catalog.printValue [scalar]
  | .scalar | .packed =>
    let scalar ← toScalar v
    Emit.callVoid Catalog.printDouble [scalar]
  | .list | .struct _ =>
    refuse "print" ("print accepts numbers and strings, not " ++ v.kind.title)
  return .scalar (.float .zero)

/-- The length of a list or of a string. -/
def lengthOf (v : Typed) : Lower Typed := do
  let count ← match v.kind with
    | .text => Emit.call .i64 Catalog.stringLength [v.value]
    | .list | .packed => do
      let list ← perform (coerce v .list)
      Emit.call .i64 Catalog.listLength [list.value]
    | other => refuse "length" ("length applies to lists and strings, not " ++ other.title)
  return .scalar (← Emit.cast .sitofp count .double)

/-- Add a value at the end of a list, which is the result. -/
def append (a : Argument) : Lower Typed := do
  match a.elements with
  | some [list, value] =>
    let list ← perform (coerce (← list) .list)
    let scalar ← toScalar (← value)
    Emit.callVoid Catalog.listAppend [list.value, scalar]
    return list
  | _ => refuse "append" "usage: append of [list, value]"

/-- A value as a string. -/
def textOf (v : Typed) : Lower Typed := do
  if v.kind = .text then return v else return .text (← numberText v)

/-- A value as a number; a string, or a word, is read as one. -/
def numberOf (v : Typed) : Lower Typed := do
  if v.kind.isTextual then
    let text ← asText v
    return .scalar (← Emit.call .double Catalog.stringToNumber [text])
  else
    let scalar ← toScalar v
    return .scalar scalar

/-- A power. -/
def power (a : Argument) : Lower Typed := do
  match ← a.values true with
  | [base, exponent] =>
    let base ← toScalar base
    let exponent ← toScalar exponent
    return .scalar (← Emit.call .double Catalog.pow [base, exponent])
  | _ => refuse "pow" "usage: pow of [base, exponent]"

/-- A mathematical function of one argument. -/
def mathOf (symbol : String) (v : Typed) : Lower Typed := do
  let scalar ← toScalar v
  return .scalar (← Emit.call .double symbol [scalar])

/-- The builtin function with a name. -/
def builtin? : String → Option (Argument → Lower Typed)
  | "print" => some fun a => do print (← a.whole)
  | "length" => some fun a => do lengthOf (← a.whole)
  | "append" => some append
  | "str" => some fun a => do textOf (← a.whole)
  | "num" => some fun a => do numberOf (← a.whole)
  | "pow" => some power
  | other => (Catalog.mathFunction? other).map fun symbol a => do mathOf symbol (← a.whole)

/-! ## Callees -/

/-- Apply what a name stands for. -/
def applyName (name : String) (a : Argument) : Lower Typed := do
  let s ← get
  match s.routine? name, Catalog.predicate? name, builtin? name with
  | some r, _, _ => callRoutine r name a
  | none, some check, _ => predicateOf check a
  | none, none, some builtin => builtin a
  | none, none, none =>
    if (← read).naming.mayDefer name s.scope then callExternal name a else undefinedName name

/-- Apply a member of a module. -/
def applyMember (module member : String) (a : Argument) : Lower Typed := do
  callExternal (← deferredMember module member) a

/-- Refuse to apply what has no name. -/
def applyOther : Lower Typed :=
  refuse "of" "only named functions and module members can be called"

end ScriptCompiler.Lowering
