import ScriptCompiler.Catalog
import ScriptCompiler.Ir.Builder
import ScriptCompiler.Lowering.Kind

/-!
# Conversions between kinds

Each conversion is decided by the kind of a value before anything is emitted: where none exists the
decision is an error, and where one exists it is a step of the builder that cannot fail. A
conversion may reserve memory for a boxed record; who frees it is for the caller to settle.
-/

namespace ScriptCompiler.Lowering

open Ir (Emit Value)

/-- Where a new boxed record lives. -/
inductive BoxHome where
  /-- In the frame of the function. -/
  | stack
  /-- On the heap. -/
  | heap
deriving DecidableEq

/-- The number of a value. A truth value becomes 0 or 1 and a boxed record its current value. The
bits of an address or of a word are read as those of a double, so that they can pass through a place
for numbers. -/
def toScalar (v : Typed) : Emit Value :=
  match v.kind with
  | .scalar => if v.value.ty = .bool then Emit.cast .uitofp v.value .double else pure v.value
  | .tracked => Emit.call .double Catalog.boxValue [v.value]
  | .list | .text | .struct _ => do
    let bits ← Emit.cast .ptrtoint v.value .i64
    Emit.cast .bitcast bits .double
  | .packed => Emit.cast .bitcast v.value .double

/-- A new boxed record with the number of a value. -/
def newBox (v : Typed) (home : BoxHome) : Emit Typed := do
  let scalar ← toScalar v
  match home with
  | .heap => return .tracked (← Emit.call .ptr Catalog.boxCreate [scalar])
  | .stack =>
    let record ← Emit.alloca (.named Ir.recordTypeName)
    Emit.callVoid Catalog.boxInit [record, scalar]
    return .tracked record

/-- A value as a boxed record. A record is taken as it is, so that two names can share it; a number
gets a new one. -/
def toTracked (v : Typed) (home : BoxHome) : Except Error (Emit Typed) :=
  match v.kind with
  | .tracked => .ok (pure v)
  | .scalar | .packed => .ok (newBox v home)
  | other => .error (.invalidConversion other.title Kind.tracked.title)

/-- The number of a value is not zero; false for a NaN. -/
def isNonzero (v : Typed) : Emit Value := do
  Emit.fcmp .one (← toScalar v) (.float .zero)

/-- The truth of a value: a number that is not zero, an address that is not null. -/
def toBoolean (v : Typed) : Except Error (Emit Value) :=
  match v.kind, v.value.ty with
  | .scalar, .int 1 => .ok (pure v.value)
  | .scalar, .double | .tracked, .ptr | .packed, .int 64 => .ok (isNonzero v)
  | .list, .ptr | .text, .ptr | .struct _, .ptr => .ok (Emit.icmp .ne v.value .null)
  | kind, ty => .error (.invalidConversion (kind.title ++ " (" ++ ty.text ++ ")") "i1")

end ScriptCompiler.Lowering
