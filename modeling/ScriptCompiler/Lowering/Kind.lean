import ScriptCompiler.Ir.Instr

/-!
# Kinds of values

The language has numbers, lists, strings and structs, while the intermediate representation has
doubles, addresses and words. A *kind* says how the bits of a generated value are to be read, and a
*typed* value is one with its kind.
-/

namespace ScriptCompiler.Lowering

/-- How a generated value is read. -/
inductive Kind where
  /-- A number, or a truth value that is widened when a number is needed. -/
  | scalar
  /-- The address of a boxed record. -/
  | tracked
  /-- The address of a list. -/
  | list
  /-- The address of a string. -/
  | text
  /-- The address of an instance of a struct type. -/
  | struct (name : String)
  /-- A word whose kind its use decides: a parameter, a result of a call, a field or an element. -/
  | packed
deriving DecidableEq

/-- The name of a kind in messages. -/
def Kind.title : Kind → String
  | .scalar => "Scalar"
  | .tracked => "Tracked"
  | .list => "List"
  | .text => "Text"
  | .struct name => "Struct(" ++ name ++ ")"
  | .packed => "Packed"

/-- A generated value with its kind. -/
structure Typed where
  value : Ir.Value
  kind : Kind
deriving DecidableEq

namespace Typed

/-- A number or a truth value. -/
def scalar (value : Ir.Value) : Typed := ⟨value, .scalar⟩

/-- A boxed record. -/
def tracked (value : Ir.Value) : Typed := ⟨value, .tracked⟩

/-- A list. -/
def list (value : Ir.Value) : Typed := ⟨value, .list⟩

/-- A string. -/
def text (value : Ir.Value) : Typed := ⟨value, .text⟩

/-- An instance of a struct type. -/
def struct (value : Ir.Value) (name : String) : Typed := ⟨value, .struct name⟩

/-- A word. -/
def packed (value : Ir.Value) : Typed := ⟨value, .packed⟩

end Typed

end ScriptCompiler.Lowering
