import ScriptCompiler.Lowering.State

/-!
# Constants, names, members and questions

Expressions that make or look up a value. A name is looked up in a fixed order: the two truth
values, variables, predicates, and last what other modules provide.
-/

namespace ScriptCompiler.Lowering

open Ir (Emit Value)

/-- A constant. Null is zero, and a string is made anew each time. -/
def literal : Literal → Lower Typed
  | .number value => return .scalar (.float value)
  | .null => return .scalar (.float .zero)
  | .text value => do
    let bytes ← stringConstant value
    return .text (← allocate Catalog.stringCreate [bytes] Catalog.stringDestroy)

/-- Compute elements one by one and store each in a list, from an index on. -/
def storeElements (list : Value) : Nat → List (Lower Typed) → Lower Unit
  | _, [] => return
  | index, element :: rest => do
    let v ← element
    let scalar ← toScalar v
    Emit.callVoid Catalog.listSet [list, .word (.ofNat index), scalar]
    storeElements list (index + 1) rest

/-- A new list of elements that are still to be computed. -/
def listOf (elements : List (Lower Typed)) : Lower Typed := do
  let list ← allocate Catalog.listCreate [.word (.ofNat elements.length)] Catalog.listDestroy
  storeElements list 0 elements
  return .list list

/-- Compute fields one by one and store each in a struct, from an index on. -/
def storeFields (object : Value) : Nat → List (Lower Typed) → Lower Unit
  | _, [] => return
  | index, field :: rest => do
    let v ← byValue (← field)
    let word ← pack v
    let address ← Emit.gep .i64 object (.word (.ofNat index))
    Emit.store word address
    storeFields object (index + 1) rest

/-- Advice on a struct type that is not declared. -/
def unknownStructHint (known : List String) : String :=
  if known.isEmpty then "No struct types declared yet"
  else "Known struct types: " ++ Text.joined ", " known

/-- A new struct of fields that are still to be computed. -/
def structOf (name : String) (args : List (Lower Typed)) : Lower Typed := do
  let s ← get
  match s.structs.lookup name with
  | none =>
    throw (.unknownStruct name (some (unknownStructHint (Text.sortedNames (s.structs.map (·.1))))))
  | some fields =>
    if fields.length ≠ args.length then
      throw (.structArity name fields.length args.length)
    let size := Value.int (← read).target.sizeType (.ofNat (fields.length * Ir.fieldBytes))
    let object ← Emit.call .ptr Catalog.malloc [size]
    storeFields object 0 args
    return .struct object name

/-- A predicate by itself asks about the variable assigned last; it is false of one without a
history. -/
def predicateOfLast (check : String) : Lower Typed := do
  let s ← get
  match s.lastBound.bind s.find? with
  | some binding =>
    if binding.storage.isTracked then
      let record ← Emit.load .ptr binding.slot
      return .scalar (← Emit.call .bool check [record])
    else return .scalar (.bool false)
  | none => return .scalar (.bool false)

/-- The error of a name that is not defined. -/
def undefinedName (name : String) : Lower Typed := do
  throw (.undefinedName name (some (undefinedHint name (← get).visibleNames)))

/-- The value of a name that is neither a truth value nor a variable in reach. -/
def unboundName (name : String) : Lower Typed := do
  let s ← get
  match s.scope, s.globals.lookup name with
  | .function, some binding => throw (.internal (.notAddressable name binding.slot.text))
  | _, _ =>
    match Catalog.predicate? name with
    | some check => predicateOfLast check
    | none =>
      if (← read).naming.mayDefer name s.scope then loadExternal name else undefinedName name

/-- The value of a name. -/
def identifier (name : String) : Lower Typed := do
  if name = "True" then return .scalar (.bool true)
  else if name = "False" then return .scalar (.bool false)
  else
    match (← get).find? name with
    | some binding => load binding
    | none => unboundName name

/-- The struct type that a field belongs to, when there is just one. -/
def ownerOf (structs : Table (List String)) (field : String) : Except Error String :=
  match Text.sortedNames ((structs.filter fun (_, fields) => field ∈ fields).map (·.1)) with
  | [only] => .ok only
  | [] => .error (.unknownStruct field (some s!"no struct declares a field named '{field}'"))
  | many =>
    .error (.unknownStruct field
      (some (s!"field '{field}' is ambiguous between " ++ Text.joined ", " many)))

/-- The struct type whose field is read from a value. -/
def structType (object : Typed) (field : String) : Lower String := do
  match object.kind with
  | .struct name => return name
  | .packed => ownerOf (← get).structs field
  | other => refuse "." ("member access applies to structs and modules, not " ++ other.title)

/-- A field of a struct, as a word. -/
def fieldOf (object : Typed) (field : String) : Lower Typed := do
  let type ← structType object field
  let object ← perform (coerce object (.struct type))
  let fields := ((← get).structs.lookup type).getD []
  match fields.idxOf? field with
  | some index =>
    let address ← Emit.gep .i64 object.value (.word (.ofNat index))
    return .packed (← Emit.load .i64 address)
  | none =>
    throw (.undefinedName (type ++ "." ++ field)
      (some (s!"'{type}' has fields: " ++ Text.joined ", " fields)))

/-- The error of a member of a module that is not imported. -/
def undefinedMember (module member : String) : Error :=
  .undefinedName (module ++ "." ++ member) (some s!"Make sure module '{module}' is imported")

/-- The symbol of a member of another module, if the unit may use it. -/
def deferredMember (module member : String) : Lower String := do
  if (← read).naming.mayDeferMember module member (← get).scope then
    return memberSymbol module member
  else throw (undefinedMember module member)

/-- A member of something that is given by name: of a module, when no variable has that name. -/
def memberOf (name member : String) : Lower Typed := do
  match (← get).find? name with
  | none => loadExternal (← deferredMember name member)
  | some _ => fieldOf (← identifier name) member

/-- The answer to a question about a value that is still to be computed. -/
def answer (word : String) (target : Lower Typed) : Lower Typed := do
  match Catalog.question? word with
  | none => refuse word "supported interrogatives: what, why, how, when"
  | some question =>
    let subject ← target
    match question.accessor with
    | none => return subject
    | some accessor =>
      if subject.kind ≠ .tracked then return .scalar (.float question.plainAnswer)
      else
        let ret := (Catalog.returnType? (← read).target accessor).getD .double
        let value ← Emit.call ret accessor [subject.value]
        if ret.isInt then return .scalar (← Emit.cast .sitofp value .double)
        else return .scalar value

end ScriptCompiler.Lowering
