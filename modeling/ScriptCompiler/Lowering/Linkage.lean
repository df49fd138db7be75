import ScriptCompiler.Catalog
import ScriptCompiler.Ir.Builder
import ScriptCompiler.Lowering.Storage

/-!
# Symbols and what other objects provide

Units are compiled one by one and meet when they are linked. `Naming` gives the symbols of a unit:
those of a library begin with the name of its module, and only the words that it exports are visible
from outside. A name that the unit does not define may still be right, since an imported module may
define it, or since it stands in a function that runs only after every initializer. Such a name is
declared as an external symbol; `Externals` keeps what each of them is.

Variables cross from module to module as arguments cross calls, as one word each.
-/

namespace ScriptCompiler.Lowering

open Ir (Assembly Emit Value Visibility)

/-- What a unit is compiled to. -/
inductive Mode where
  /-- A program, with an entry point of its own. -/
  | program
  /-- A module that programs link against. -/
  | library (module : String)
deriving DecidableEq

/-- How a unit names its symbols, and which names it leaves to the linker. -/
structure Naming where
  mode : Mode
  /-- Imported modules in the order in which they are initialized. -/
  importedModules : List String := []
  /-- Names of other modules that top-level code may use. -/
  importedNames : List String := []
  /-- Beginnings of symbols that a library makes visible besides its own. -/
  extraExports : List String := []

/-- The symbol of the initializer of a module. -/
def initSymbol (module : String) : String := module ++ "_init"

/-- The symbol of a member of a module. -/
def memberSymbol (module member : String) : String := module ++ "_" ++ member

namespace Naming

/-- The unit is a library. -/
def isLibrary (n : Naming) : Bool :=
  match n.mode with
  | .program => false
  | .library _ => true

/-- The symbol of the entry function. -/
def entrySymbol (n : Naming) : String :=
  match n.mode with
  | .program => "main"
  | .library module => initSymbol module

/-- The symbol of a function. In a program a function gives way to the entry point and to the
catalogued functions. -/
def functionSymbol (n : Naming) (name : String) : String :=
  match n.mode with
  | .library module => memberSymbol module name
  | .program => if name = "main" || Catalog.isCatalogued name then name ++ ".user" else name

/-- The symbol of the storage of a variable at top level. It never begins as exported symbols do, so
that storage stays invisible. -/
def globalSymbol (n : Naming) (name : String) : String :=
  match n.mode with
  | .program => "main." ++ name
  | .library module =>
    match name.toList with
    | '_' :: rest => "_" ++ module ++ "." ++ String.ofList rest
    | _ => module ++ "." ++ name

/-- The symbol of the exported word of a variable of a library, unless its name begins with an
underscore. -/
def exportSymbol? (n : Naming) (name : String) : Option String :=
  match n.mode with
  | .library module => if Text.startsWith "_" name then none else some (memberSymbol module name)
  | .program => none

/-- Beginnings of the symbols that a library makes visible. -/
def exportPrefixes (n : Naming) : List String :=
  match n.mode with
  | .library module => (module ++ "_") :: n.extraExports
  | .program => n.extraExports

/-- Who can see a global that the unit defines. -/
def globalVisibility (n : Naming) (symbol : String) : Visibility :=
  match n.mode with
  | .program => .internal
  | .library _ =>
    if n.exportPrefixes.any (Text.startsWith · symbol) then .external else .hidden

/-- A name that is not bound may be left to the linker: any name inside a function, and an imported
one in the entry function. -/
def mayDefer (n : Naming) (name : String) (scope : Scope) : Bool :=
  scope ≠ .topLevel || name ∈ n.importedNames

/-- A member of a module may be left to the linker. -/
def mayDeferMember (n : Naming) (module member : String) (scope : Scope) : Bool :=
  scope ≠ .topLevel || module ∈ n.importedModules || memberSymbol module member ∈ n.importedNames

end Naming

/-- The error of a symbol that is already taken by a definition of another sort. -/
def symbolConflict (symbol usage : String) : Error :=
  .symbolConflict symbol
    (some (s!"'{symbol}' is {usage} here but already names a different definition;"
      ++ " rename one of them"))

/-- Advice on a name that is not defined: up to three names with the same first letter, or else up
to five of those that are defined. -/
def undefinedHint (name : String) (candidates : List String) : String :=
  if candidates.isEmpty then "No variables defined yet"
  else
    let similar := candidates.filter fun c => c.toList.head? = name.toList.head?
    if similar.isEmpty then
      "Available variables: " ++ Text.joined ", " (candidates.take 5)
    else "Did you mean: " ++ Text.joined ", " (similar.take 3) ++ "?"

/-! ## External symbols -/

/-- The external symbols that a unit uses. -/
structure Externals where
  /-- Variables. -/
  vars : List String := []
  /-- Functions with the number of words they take. -/
  functions : List (String × Nat) := []

namespace Externals

/-- The number of external symbols. -/
def count (e : Externals) : Nat := e.vars.length + e.functions.length

/-- The variable behind an external symbol. -/
def binding (symbol : String) : Binding := ⟨.packedSlot, .packed, .global symbol⟩

/-- Use a symbol as an external variable. The first use declares it; a symbol that is already a
function, or belongs to the unit, cannot be one. -/
def useVariable (e : Externals) (a : Assembly) (symbol : String) :
    Except Error (Externals × Assembly) :=
  if symbol ∈ e.vars then .ok (e, a)
  else if (e.functions.lookup symbol).isSome || a.hasSymbol symbol then
    .error (symbolConflict symbol "read as a variable")
  else .ok ({ e with vars := e.vars ++ [symbol] },
    a.addGlobal { name := symbol, ty := .i64, visibility := .external, init := none })

/-- Use a symbol as an external function of `arity` words. The first use declares it and settles its
arity, which is the first component of the result; a symbol that is already a variable, or belongs
to the unit, cannot be one. -/
def useFunction (e : Externals) (a : Assembly) (symbol : String) (arity : Nat) :
    Except Error (Nat × Externals × Assembly) :=
  match e.functions.lookup symbol with
  | some declared => .ok (declared, e, a)
  | none =>
    if symbol ∈ e.vars || a.hasSymbol symbol then
      .error (symbolConflict symbol "called as a function")
    else .ok (arity, { e with functions := e.functions ++ [(symbol, arity)] },
      a.declare ⟨symbol, .i64, List.replicate arity .i64⟩)

end Externals

/-- The modules whose initializers the entry function calls first. -/
def Naming.initialized (n : Naming) : List String :=
  match n.mode with
  | .program => n.importedModules
  | .library _ => []

/-- The assembly with the initializers of imported modules declared. -/
def declareInits (n : Naming) (a : Assembly) : Assembly :=
  n.initialized.foldl (fun a module => a.declare ⟨initSymbol module, .void, []⟩) a

/-- Call the initializers of imported modules. -/
def callInits (n : Naming) : Emit Unit :=
  n.initialized.forM fun module => Emit.callVoid (initSymbol module) []

end ScriptCompiler.Lowering
