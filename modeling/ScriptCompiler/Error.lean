import ScriptCompiler.Text.Quoted
import ScriptCompiler.Text.Record

/-!
# Errors

Everything that can stop a compilation, by cause. A *diagnostic* is a mistake in the program being
compiled and may carry a hint; a *defect* is a state that the compiler itself should never reach; an
*environment* error comes from files, input documents or other tools. `message` is the wording of
each cause, `report` adds the hint, and `shown` is the detailed form.
-/

namespace ScriptCompiler

/-- A state that no unit handed over by a correct front end brings about. -/
inductive Defect where
  /-- The insertion point was to move to a block that does not exist. -/
  | noBlock (label : String)
  /-- A function is defined inside another one. -/
  | nestedFunction (name : String)
  /-- A statement stands where a value is needed. -/
  | notAnExpression (title : String)
  /-- A function reads a top-level variable that lives in a register of the entry function. -/
  | notAddressable (name slot : String)
  /-- The body of a function that was never noted was to be lowered. -/
  | undeclared (name : String)
  /-- A variable that does not exist was to be changed. -/
  | noBinding (placement name : String)
  /-- A parameter was to change a variable that exists. -/
  | placedParameter (name placement : String)
  /-- Any other, in words. -/
  | described (text : String)
deriving DecidableEq

/-- What went wrong. -/
def Defect.text : Defect → String
  | .noBlock label => s!"no block named '{label}'"
  | .nestedFunction name => s!"nested function definition '{name}' reached the generator"
  | .notAnExpression title => s!"{title} used as an expression"
  | .notAddressable name slot =>
    s!"top-level '{name}' lives in {slot} and is not addressable from a function"
  | .undeclared name => s!"function '{name}' was never declared"
  | .noBinding placement name => s!"placement {placement} for '{name}' without an existing binding"
  | .placedParameter name placement => s!"parameter '{name}' placed as {placement}"
  | .described text => text

/-- A cause of failure. -/
inductive Error where
  /-- A name that is neither bound nor left to the linker is read. -/
  | undefinedName (name : String) (hint : Option String)
  /-- A struct is built with the wrong number of values. -/
  | structArity (name : String) (expected got : Nat)
  /-- A struct type, or the type that owns a field, cannot be told. -/
  | unknownStruct (name : String) (hint : Option String)
  /-- An operator, a question word or a builtin does not apply to its operands. -/
  | invalidOperator (operator : String) (hint : Option String)
  /-- There is no loop to break out of. -/
  | breakOutsideLoop (hint : Option String)
  /-- One link symbol would have two meanings. -/
  | symbolConflict (symbol : String) (hint : Option String)
  /-- The compiler reached a state it should not. -/
  | internal (defect : Defect)
  /-- A value of one kind was to be used as another. -/
  | invalidConversion (source target : String)
  /-- The generated module is not well-formed. -/
  | verificationFailed (errors : List String)
  /-- A file cannot be read. -/
  | io (path text : String)
  /-- The input is not a unit. -/
  | inputFormat (text : String)
  /-- A tool ran and failed. -/
  | toolFailed (tool text : String)
  /-- A tool could not be started. -/
  | toolNotFound (tool : String)
deriving DecidableEq

/-- The three origins of an error. -/
inductive Error.Class where
  | diagnostic
  | defect
  | environment
deriving DecidableEq

namespace Error

/-- The origin of an error. -/
def classify : Error → Class
  | .undefinedName .. | .structArity .. | .unknownStruct .. | .invalidOperator ..
  | .breakOutsideLoop .. | .symbolConflict .. => .diagnostic
  | .internal .. | .invalidConversion .. | .verificationFailed .. => .defect
  | .io .. | .inputFormat .. | .toolFailed .. | .toolNotFound .. => .environment

/-- The error is a fault of the compiler itself. -/
def isDefect (e : Error) : Bool := e.classify = .defect

/-- The advice that goes with a diagnostic. -/
def hint? : Error → Option String
  | .undefinedName _ hint | .unknownStruct _ hint | .invalidOperator _ hint
  | .symbolConflict _ hint | .breakOutsideLoop hint => hint
  | _ => none

/-- The wording of an error. -/
def message : Error → String
  | .undefinedName name _ => s!"Undefined variable: {name}"
  | .structArity name expected got =>
    s!"Struct '{name}' expects {expected} field(s), got {got}"
  | .unknownStruct name _ => s!"Unknown struct type: {name}"
  | .invalidOperator operator _ => s!"Invalid operator: {operator}"
  | .breakOutsideLoop _ => "'break' outside loop"
  | .symbolConflict symbol _ => s!"Conflicting uses of symbol: {symbol}"
  | .internal defect => "Internal compiler error: " ++ defect.text
  | .invalidConversion source target =>
    s!"Internal compiler error: cannot convert {source} to {target}"
  | .verificationFailed errors => "IR verification failed:\n" ++ Text.joined "\n" errors
  | .io path text => s!"I/O error on {path}: {text}"
  | .inputFormat text => s!"Malformed AST input: {text}"
  | .toolFailed tool text => s!"{tool} failed: {text}"
  | .toolNotFound tool => s!"'{tool}' not found in PATH"

/-- The wording with the hint, if there is one, on a line of its own. -/
def report (e : Error) : String :=
  match e.hint? with
  | some hint => e.message ++ "\n  hint: " ++ hint
  | none => e.message

/-- The detailed form of a string. -/
def shownText (s : String) : Text.Shown := .atom (Text.quoted s)

/-- The detailed form of an optional string. -/
def shownOption : Option String → Text.Shown
  | some s => .applied "Some" [shownText s]
  | none => .atom "None"

/-- The detailed form of an error: its cause by name, with every field. -/
def shown : Error → Text.Shown
  | .undefinedName name hint =>
    .record "UndefinedName" [("name", shownText name), ("hint", shownOption hint)]
  | .structArity name expected got =>
    .record "StructArity" [("name", shownText name), ("expected", .atom (toString expected)),
      ("got", .atom (toString got))]
  | .unknownStruct name hint =>
    .record "UnknownStruct" [("name", shownText name), ("hint", shownOption hint)]
  | .invalidOperator operator hint =>
    .record "InvalidOperator" [("operator", shownText operator), ("hint", shownOption hint)]
  | .breakOutsideLoop hint => .record "BreakOutsideLoop" [("hint", shownOption hint)]
  | .symbolConflict symbol hint =>
    .record "SymbolConflict" [("symbol", shownText symbol), ("hint", shownOption hint)]
  | .internal defect => .record "Internal" [("message", shownText defect.text)]
  | .invalidConversion source target =>
    .record "InvalidConversion" [("from", shownText source), ("to", shownText target)]
  | .verificationFailed errors =>
    .record "VerificationFailed" [("errors", .elements (errors.map shownText))]
  | .io path text => .record "Io" [("path", shownText path), ("message", shownText text)]
  | .inputFormat text => .applied "InputFormat" [shownText text]
  | .toolFailed tool text =>
    .record "Toolchain" [("tool", shownText tool), ("message", shownText text)]
  | .toolNotFound tool => .record "ToolNotFound" [("tool", shownText tool)]

end Error

end ScriptCompiler
