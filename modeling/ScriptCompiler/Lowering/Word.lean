import ScriptCompiler.Lowering.Convert

/-!
# Words

Values cross calls, fields and elements as words of 64 bits. A value that leaves is first tagged
with how its bits are to be read, and the tag is erased last. A word that arrives stays packed until
a use asks for a kind, because one function may be called with a number here and a string there.
-/

namespace ScriptCompiler.Lowering

open Ir (Emit Value)

/-- A value on its way into a word. -/
inductive Slot where
  /-- A double, of which the bits are taken. -/
  | number (value : Value)
  /-- An address. -/
  | pointer (value : Value)
  /-- A word already. -/
  | word (value : Value)
deriving DecidableEq

namespace Slot

/-- The slot of a value. -/
def ofTyped (v : Typed) : Emit Slot :=
  match v.kind with
  | .scalar => return .number (← toScalar v)
  | .tracked | .list | .text | .struct _ => return .pointer v.value
  | .packed => return .word v.value

/-- The slot of an argument that is missing. -/
def zero : Slot := .number (.float .zero)

/-- The word of a slot. -/
def erase : Slot → Emit Value
  | .number v => Emit.cast .bitcast v .i64
  | .pointer p => Emit.cast .ptrtoint p .i64
  | .word w => return w

end Slot

/-- The word of a value. -/
def pack (v : Typed) : Emit Value := do
  (← Slot.ofTyped v).erase

/-- A word read as a value of the expected kind. -/
def unpack (word : Value) (expected : Kind) : Emit Typed :=
  match expected with
  | .scalar => return .scalar (← Emit.cast .bitcast word .double)
  | .packed => return .packed word
  | kind => return ⟨← Emit.cast .inttoptr word .ptr, kind⟩

/-- A value at another kind. A word is decoded, an instance of one struct type may stand for one of
another, and a boxed record gives its number. -/
def coerce (v : Typed) (want : Kind) : Except Error (Emit Typed) :=
  if v.kind = want then .ok (pure v)
  else match v.kind, want with
    | .packed, _ => .ok (unpack v.value want)
    | .struct _, .struct name => .ok (pure (.struct v.value name))
    | .tracked, .scalar => .ok (do return .scalar (← toScalar v))
    | kind, _ => .error (.invalidConversion kind.title want.title)

/-- A value as it crosses a call: a boxed record is read out, all else stays. -/
def byValue (v : Typed) : Emit Typed :=
  match v.kind with
  | .tracked => return .scalar (← toScalar v)
  | _ => return v

/-! ## Fitting arguments -/

/-- How the arguments of a call were made to fit. -/
inductive Fit where
  | exact
  /-- Zeros were added for missing arguments. -/
  | padded (missing : Nat)
  /-- Arguments at the end were dropped. -/
  | truncated (extra : Nat)
deriving DecidableEq

/-- The arguments that a function of the given arity receives: missing ones are zero, surplus ones
are dropped. -/
def fitted (args : List Slot) (arity : Nat) : List Slot :=
  args.take arity ++ List.replicate (arity - args.length) .zero

/-- How `supplied` arguments fit an arity. -/
def Fit.of (supplied arity : Nat) : Fit :=
  if supplied < arity then .padded (arity - supplied)
  else if arity < supplied then .truncated (supplied - arity)
  else .exact

/-- The warning that a fit calls for. -/
def Fit.warning? (callee : String) (supplied arity : Nat) : Fit → Option String
  | .exact => none
  | .padded missing =>
    some s!"call to '{callee}' passes {supplied} of {arity} arguments; {missing} zero-filled"
  | .truncated extra =>
    some s!"call to '{callee}' passes {supplied} arguments but takes {arity}; {extra} dropped"

end ScriptCompiler.Lowering
