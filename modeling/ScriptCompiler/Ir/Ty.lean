import ScriptCompiler.Text.Names

/-!
# Types of the intermediate representation

The types that values and memory can have, their text and the reader of that text, and the layouts
of the records that the run-time library and the generated code share.
-/

namespace ScriptCompiler.Ir

/-- A type. -/
inductive Ty where
  /-- No value; only for the results of functions. -/
  | void
  /-- An integer of a number of bits. -/
  | int (bits : Nat)
  /-- A double-precision number. -/
  | double
  /-- An address. -/
  | ptr
  /-- A record type, by name. -/
  | named (name : String)
  | array (length : Nat) (element : Ty)
deriving DecidableEq

namespace Ty

/-- A truth value. -/
abbrev bool : Ty := .int 1

/-- A byte. -/
abbrev i8 : Ty := .int 8

/-- A half word. -/
abbrev i32 : Ty := .int 32

/-- A word. -/
abbrev i64 : Ty := .int 64

/-- An integer type of any width. -/
def isInt : Ty → Bool
  | .int _ => true
  | _ => false

/-- Values of the type can be held in a register. -/
def isFirstClass : Ty → Bool
  | .int _ | .double | .ptr => true
  | _ => false

/-- The text of a type. -/
def text : Ty → String
  | .void => "void"
  | .int bits => "i" ++ toString bits
  | .double => "double"
  | .ptr => "ptr"
  | .named name => "%" ++ name
  | .array length element => "[" ++ toString length ++ " x " ++ element.text ++ "]"

/-- A natural number in decimal digits. -/
def natural? (digits : List Char) : Option Nat :=
  if digits.isEmpty || !digits.all Char.isDigit then none
  else some (digits.foldl (fun n c => 10 * n + (c.toNat - '0'.toNat)) 0)

/-- The type of a text whose arrays are nested at most `depth` deep. -/
def ofChars? : (depth : Nat) → List Char → Option Ty
  | _, ['v', 'o', 'i', 'd'] => some .void
  | _, ['d', 'o', 'u', 'b', 'l', 'e'] => some .double
  | _, ['p', 't', 'r'] => some .ptr
  | _, 'i' :: digits => (natural? digits).map .int
  | _, '%' :: name => some (.named (String.ofList name))
  | depth + 1, '[' :: rest => do
    let length ← natural? (rest.takeWhile Char.isDigit)
    match rest.dropWhile Char.isDigit with
    | ' ' :: 'x' :: ' ' :: element =>
      match element.reverse with
      | ']' :: element => return .array length (← ofChars? depth element.reverse)
      | _ => none
    | _ => none
  | _, _ => none

/-- The type of a text. -/
def ofText? (text : String) : Option Ty :=
  ofChars? text.length text.toList

/-- A list of types separated by commas. -/
def listText (types : List Ty) : String :=
  Text.joined ", " (types.map text)

end Ty

/-- A named record type. -/
structure StructType where
  name : String
  fields : List Ty
deriving DecidableEq

/-- How many past values a boxed record keeps. -/
def historyCapacity : Nat := 100

/-- The name of the type of boxed records. -/
def recordTypeName : String := "EigenValue"

/-- The type of boxed records: value, gradient, stability, number of updates, the ring of past
values with its size and position, and the previous value and gradient. -/
def recordType : StructType where
  name := recordTypeName
  fields := [.double, .double, .double, .i64, .array historyCapacity .double, .i32, .i32, .double,
    .double]

/-- The type of lists and of strings: data, length, capacity. -/
def collectionType (name : String) : StructType where
  name := name
  fields := [.ptr, .i64, .i64]

/-- The record types that every module declares. -/
def sharedTypes : List StructType :=
  [recordType, collectionType "EigenList", collectionType "EigenString"]

/-- The bytes that one field of a struct instance takes. -/
def fieldBytes : Nat := 8

end ScriptCompiler.Ir
