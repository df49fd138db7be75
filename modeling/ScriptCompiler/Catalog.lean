import ScriptCompiler.Ir.Assembly
import ScriptCompiler.Target

/-!
# The functions that programs link against

Generated code calls a fixed set of functions of the language's run-time library and of the C
library, and defines none of them. Every assembly declares all of them, in the order of `catalog`.
The source language reaches some through words of its own: predicates such as `converged`, questions
such as `why`, and mathematical functions.
-/

namespace ScriptCompiler.Catalog

open Ir (Ty Signature Assembly)

/-- A type in a catalogued signature. -/
inductive Param where
  | void
  | bool
  | i64
  | double
  | ptr
  /-- The type of sizes, which depends on the target. -/
  | size
deriving DecidableEq

/-- The type on a target. -/
def Param.lower (target : Target) : Param → Ty
  | .void => .void
  | .bool => .bool
  | .i64 => .i64
  | .double => .double
  | .ptr => .ptr
  | .size => target.sizeType

/-- A catalogued function. -/
structure Entry where
  name : String
  ret : Param
  params : List Param
deriving DecidableEq

/-- The signature of a catalogued function on a target. -/
def Entry.signature (target : Target) (e : Entry) : Signature :=
  ⟨e.name, e.ret.lower target, e.params.map (·.lower target)⟩

/-- Reserve memory. -/
def malloc : String := "malloc"
/-- Make a boxed record on the heap. -/
def boxCreate : String := "eigen_create"
/-- Make a boxed record in storage that the caller provides. -/
def boxInit : String := "eigen_init"
/-- Give a boxed record a new value. -/
def boxUpdate : String := "eigen_update"
/-- The current value of a boxed record. -/
def boxValue : String := "eigen_get_value"
/-- The latest rate of change of a boxed record. -/
def boxGradient : String := "eigen_get_gradient"
/-- The stability of a boxed record. -/
def boxStability : String := "eigen_get_stability"
/-- The number of updates of a boxed record. -/
def boxIteration : String := "eigen_get_iteration"
/-- Free a boxed record on the heap; null is allowed. -/
def boxDestroy : String := "eigen_destroy"
/-- Make a list of a length. -/
def listCreate : String := "eigen_list_create"
/-- Read an element of a list. -/
def listGet : String := "eigen_list_get"
/-- Write an element of a list. -/
def listSet : String := "eigen_list_set"
/-- The length of a list. -/
def listLength : String := "eigen_list_length"
/-- Add an element at the end of a list. -/
def listAppend : String := "eigen_list_append"
/-- Free a list; null is allowed. -/
def listDestroy : String := "eigen_list_destroy"
/-- Make a string of a constant. -/
def stringCreate : String := "eigen_string_create"
/-- Free a string; null is allowed. -/
def stringDestroy : String := "eigen_string_destroy"
/-- The length of a string in bytes. -/
def stringLength : String := "eigen_string_length"
/-- Join two strings. -/
def stringConcat : String := "eigen_string_concat"
/-- Compare two strings; not zero when they are equal. -/
def stringEquals : String := "eigen_string_equals"
/-- The code of a character of a string. -/
def charAt : String := "eigen_char_at"
/-- The string of a number. -/
def numberToString : String := "eigen_number_to_string"
/-- The number that a string stands for. -/
def stringToNumber : String := "eigen_string_to_number"
/-- Print a number. -/
def printDouble : String := "eigen_print_double"
/-- Print a string. -/
def printString : String := "eigen_print_string"
/-- Print the current value of a tracked variable. -/
def printValue : String := "eigen_print_val"
/-- The power function. -/
def pow : String := "pow"

/-- Every function, in the order of declaration. -/
def catalog : List Entry :=
  [⟨malloc, .ptr, [.size]⟩,
    -- boxed records
    ⟨boxCreate, .ptr, [.double]⟩,
    ⟨boxInit, .void, [.ptr, .double]⟩,
    ⟨boxUpdate, .void, [.ptr, .double]⟩,
    ⟨boxValue, .double, [.ptr]⟩,
    ⟨boxGradient, .double, [.ptr]⟩,
    ⟨boxStability, .double, [.ptr]⟩,
    ⟨boxIteration, .i64, [.ptr]⟩,
    ⟨"eigen_check_converged", .bool, [.ptr]⟩,
    ⟨"eigen_check_diverging", .bool, [.ptr]⟩,
    ⟨"eigen_check_oscillating", .bool, [.ptr]⟩,
    ⟨"eigen_check_stable", .bool, [.ptr]⟩,
    ⟨"eigen_check_improving", .bool, [.ptr]⟩,
    ⟨boxDestroy, .void, [.ptr]⟩,
    -- lists
    ⟨listCreate, .ptr, [.i64]⟩,
    ⟨listGet, .double, [.ptr, .i64]⟩,
    ⟨listSet, .void, [.ptr, .i64, .double]⟩,
    ⟨listLength, .i64, [.ptr]⟩,
    ⟨listAppend, .void, [.ptr, .double]⟩,
    ⟨listDestroy, .void, [.ptr]⟩,
    -- strings
    ⟨stringCreate, .ptr, [.ptr]⟩,
    ⟨stringDestroy, .void, [.ptr]⟩,
    ⟨stringLength, .i64, [.ptr]⟩,
    ⟨stringConcat, .ptr, [.ptr, .ptr]⟩,
    ⟨stringEquals, .i64, [.ptr, .ptr]⟩,
    ⟨charAt, .i64, [.ptr, .i64]⟩,
    ⟨numberToString, .ptr, [.double]⟩,
    ⟨stringToNumber, .double, [.ptr]⟩,
    -- output
    ⟨printDouble, .void, [.double]⟩,
    ⟨printString, .void, [.ptr]⟩,
    ⟨printValue, .void, [.double]⟩,
    -- mathematics
    ⟨"sqrt", .double, [.double]⟩,
    ⟨"fabs", .double, [.double]⟩,
    ⟨"floor", .double, [.double]⟩,
    ⟨"ceil", .double, [.double]⟩,
    ⟨"sin", .double, [.double]⟩,
    ⟨"cos", .double, [.double]⟩,
    ⟨"exp", .double, [.double]⟩,
    ⟨"log", .double, [.double]⟩,
    ⟨pow, .double, [.double, .double]⟩]

/-- The catalogued function with a name. -/
def find? (name : String) : Option Entry := catalog.find? (·.name = name)

/-- The name is that of a catalogued function. -/
def isCatalogued (name : String) : Bool := (find? name).isSome

/-- The result type of a catalogued function. -/
def returnType? (target : Target) (name : String) : Option Ty :=
  (find? name).map (·.ret.lower target)

/-- The assembly with every catalogued function declared. -/
def declareAll (target : Target) (a : Assembly) : Assembly :=
  catalog.foldl (fun a e => a.declare (e.signature target)) a

/-- The check behind a predicate of the source language. -/
def predicate? : String → Option String
  | "converged" => some "eigen_check_converged"
  | "diverging" => some "eigen_check_diverging"
  | "oscillating" => some "eigen_check_oscillating"
  | "stable" => some "eigen_check_stable"
  | "improving" => some "eigen_check_improving"
  | _ => none

/-- A question about a variable. -/
structure Question where
  /-- The function that answers it; `none` when the answer is the value itself. -/
  accessor : Option String
  /-- The answer for a number without a history. -/
  plainAnswer : Double

/-- The question behind a word of the source language. -/
def question? : String → Option Question
  | "what" => some ⟨none, .zero⟩
  | "why" => some ⟨some boxGradient, .zero⟩
  | "how" => some ⟨some boxStability, .one⟩
  | "when" => some ⟨some boxIteration, .zero⟩
  | _ => none

/-- The function behind a mathematical function of one argument. -/
def mathFunction? : String → Option String
  | "sqrt" => some "sqrt"
  | "abs" => some "fabs"
  | "floor" => some "floor"
  | "ceil" => some "ceil"
  | "sin" => some "sin"
  | "cos" => some "cos"
  | "exp" => some "exp"
  | "log" => some "log"
  | _ => none

/-- The functions that reserve memory. -/
def allocating : List String :=
  [boxCreate, listCreate, stringCreate, stringConcat, numberToString, malloc]

/-- The functions that free memory. -/
def releasing : List String := [boxDestroy, listDestroy, stringDestroy]

end ScriptCompiler.Catalog
