import ScriptCompiler.Json.Reader
import ScriptCompiler.Source.Unit

/-!
# The exchange format of units

Units travel as JSON. A node is an object with its kind under the name `kind` and its contents under
fixed field names, or an array that lists the kind and then the contents in the order of `fields`.
The same two forms serve for imports and for the unit itself. In the object form the fields may
stand in any order, fields that nobody asks for are passed over, and a field that is asked for may
not be repeated. In the array form trailing fields may be missing when they have a default, and
nothing may follow the last field.

`SourceUnit.toJson` writes the object form with every field, and `SourceUnit.decode?` reads both.
Documents have a limit on how deeply they nest, and `SourceUnit.ofJson?` keeps to it.

Reading goes by recursion on the value. A part of a node is a node, a list of nodes or something
simpler, and which of these it has to be is known only from the kind of the node around it, so each
part is read in all three ways at once (`Reading`).
-/

namespace ScriptCompiler

/-! ## Kinds and their fields -/

namespace Node.Kind

/-- The kinds in the order in which they are numbered. -/
def all : List Kind :=
  [.literal, .identifier, .binary, .unary, .assignment, .indexedAssignment, .functionDef, .ret,
    .breakLoop, .conditional, .loop, .listLiteral, .index, .memberAccess, .structDef,
    .structLiteral, .interrogative, .relation, .importModule]

/-- The name of a kind in the exchange format. -/
def tag : Kind → String
  | .literal => "literal"
  | .identifier => "identifier"
  | .binary => "binary"
  | .unary => "unary"
  | .assignment => "assignment"
  | .indexedAssignment => "indexed_assignment"
  | .functionDef => "function_def"
  | .ret => "return"
  | .breakLoop => "break"
  | .conditional => "conditional"
  | .loop => "loop"
  | .listLiteral => "list_literal"
  | .index => "index"
  | .memberAccess => "member_access"
  | .structDef => "struct_def"
  | .structLiteral => "struct_literal"
  | .interrogative => "interrogative"
  | .relation => "relation"
  | .importModule => "import"

/-- The fields of a kind in order. -/
def fields : Kind → List String
  | .literal => ["value"]
  | .identifier => ["name"]
  | .binary => ["op", "left", "right"]
  | .unary => ["op", "operand"]
  | .assignment => ["name", "value"]
  | .indexedAssignment => ["target", "index", "value"]
  | .functionDef => ["name", "params", "body"]
  | .ret => ["value"]
  | .breakLoop => []
  | .conditional => ["condition", "then_block", "else_block"]
  | .loop => ["condition", "body"]
  | .listLiteral => ["elements"]
  | .index => ["list", "index"]
  | .memberAccess => ["object", "member"]
  | .structDef => ["name", "fields"]
  | .structLiteral => ["name", "args"]
  | .interrogative => ["word", "target"]
  | .relation => ["callee", "argument"]
  | .importModule => ["module"]

/-- The kind with a given name. -/
def ofTag? (tag : String) : Option Kind := all.find? (·.tag = tag)

/-- The kind that a value names: by its name, or by its number in `all`. -/
def ofJson? : Json → Option Kind
  | .text (some name) => ofTag? name
  | .whole (.ofNat n) => all[n]?
  | _ => none

end Node.Kind

/-! ## Writing -/

/-- An object whose fields are all named. -/
def Json.record (fields : List (String × Json)) : Json :=
  .object (fields.map fun (name, value) => (some name, value))

/-- A string. -/
def Json.ofString (s : String) : Json := .text (some s)

/-- A string, or `null` for none. -/
def Json.ofOption (s : Option String) : Json := s.elim .null Json.ofString

/-- An array of strings. -/
def Json.ofStrings (names : List String) : Json := .array (names.map Json.ofString)

/-- A literal. A number that is not finite has no JSON form and is written as `null`. -/
def Literal.toJson : Literal → Json
  | .number value => if value.isFinite then .real (some value) else .null
  | .text value => .ofString value
  | .null => .null

namespace Node

mutual

/-- The object form of a node. -/
def toJson : Node → Json
  | .literal value => tagged .literal [("value", value.toJson)]
  | .identifier name => tagged .identifier [("name", .ofString name)]
  | .binary op left right =>
    tagged .binary [("op", .ofString op), ("left", left.toJson), ("right", right.toJson)]
  | .unary op operand => tagged .unary [("op", .ofString op), ("operand", operand.toJson)]
  | .assignment name value =>
    tagged .assignment [("name", .ofString name), ("value", value.toJson)]
  | .indexedAssignment target position value =>
    tagged .indexedAssignment
      [("target", target.toJson), ("index", position.toJson), ("value", value.toJson)]
  | .functionDef name params body =>
    tagged .functionDef
      [("name", .ofString name), ("params", .ofStrings params), ("body", .array (toJsonAll body))]
  | .ret value => tagged .ret [("value", toJsonOption value)]
  | .breakLoop => tagged .breakLoop []
  | .conditional condition thenBlock elseBlock =>
    tagged .conditional
      [("condition", condition.toJson), ("then_block", .array (toJsonAll thenBlock)),
        ("else_block", .array (toJsonAll elseBlock))]
  | .loop condition body =>
    tagged .loop [("condition", condition.toJson), ("body", .array (toJsonAll body))]
  | .listLiteral elements => tagged .listLiteral [("elements", .array (toJsonAll elements))]
  | .index list position => tagged .index [("list", list.toJson), ("index", position.toJson)]
  | .memberAccess object member =>
    tagged .memberAccess [("object", object.toJson), ("member", .ofString member)]
  | .structDef name fields =>
    tagged .structDef [("name", .ofString name), ("fields", .ofStrings fields)]
  | .structLiteral name args =>
    tagged .structLiteral [("name", .ofString name), ("args", .array (toJsonAll args))]
  | .interrogative word target =>
    tagged .interrogative [("word", .ofString word), ("target", target.toJson)]
  | .relation callee argument =>
    tagged .relation [("callee", callee.toJson), ("argument", argument.toJson)]
  | .importModule module => tagged .importModule [("module", .ofString module)]
where
  /-- An object with its kind in front. -/
  tagged (kind : Kind) (fields : List (String × Json)) : Json :=
    .record (("kind", .ofString kind.tag) :: fields)

/-- The object forms of several nodes. -/
def toJsonAll : List Node → List Json
  | [] => []
  | n :: rest => n.toJson :: toJsonAll rest

/-- The object form of a node, `null` for none. -/
def toJsonOption : Option Node → Json
  | none => .null
  | some n => n.toJson

end

end Node

/-- The object form of an import. -/
def Import.toJson (i : Import) : Json :=
  .record [("module", .ofString i.module), ("path", .ofOption i.path)]

/-- The object form of a unit. -/
def SourceUnit.toJson (u : SourceUnit) : Json :=
  .record [("statements", .array (Node.toJsonAll u.statements)),
    ("observed", .ofStrings u.observed), ("imports", .array (u.imports.map Import.toJson)),
    ("module", .ofOption u.module)]

/-! ## Reading -/

/-- A part of a node, with the node and the list of nodes that it stands for, if any. -/
structure Reading where
  json : Json
  node : Option Node
  nodes : Option (List Node)

namespace Reading

/-- The string that a part is. -/
def text? (p : Reading) : Option String := p.json.text?

/-- The strings that a part lists. -/
def texts? (p : Reading) : Option (List String) := p.json.texts?

/-- The constant that a part is. -/
def literal? (p : Reading) : Option Literal :=
  match p.json with
  | .null => some .null
  | .text value => value.map .text
  | json => json.number?.map .number

/-- The node that a part is, `none` inside for `null`. -/
def optionalNode? (p : Reading) : Option (Option Node) :=
  match p.json with
  | .null => some none
  | _ => p.node.map some

end Reading

/-- The parts of a record by field name, only of the fields that the record has. -/
abbrev Fields (α : Type) := List (String × α)

namespace Fields

variable {α : Type}

/-- The fields `names` of an object. A name that occurs twice is refused. -/
def ofObject? (names : List String) (parts : List (Option String × α)) : Option (Fields α) :=
  let known := parts.filterMap fun (name, part) =>
    name.bind fun name => if name ∈ names then some (name, part) else none
  if (known.map (·.1)).Nodup then some known else none

/-- The fields `names` of an array, in order. More parts than fields are refused. -/
def ofArray? (names : List String) (parts : List α) : Option (Fields α) :=
  if parts.length ≤ names.length then some (names.zip parts) else none

/-- The part under a name, read by `read`. -/
def required {β : Type} (fs : Fields α) (name : String) (read : α → Option β) : Option β :=
  (fs.lookup name).bind read

/-- The part under a name, read by `read`, or the default when there is no such field. -/
def withDefault {β : Type} (fs : Fields α) (name : String) (read : α → Option β) (default : β) :
    Option β :=
  match fs.lookup name with
  | some part => read part
  | none => some default

end Fields

namespace Node

/-- The node of a kind with given fields. -/
def ofFields? (kind : Kind) (fs : Fields Reading) : Option Node :=
  let node (name : String) := fs.required name Reading.node
  let nodes (name : String) := fs.required name Reading.nodes
  let text (name : String) := fs.required name Reading.text?
  match kind with
  | .literal => do return .literal (← fs.required "value" Reading.literal?)
  | .identifier => do return .identifier (← text "name")
  | .binary => do return .binary (← text "op") (← node "left") (← node "right")
  | .unary => do return .unary (← text "op") (← node "operand")
  | .assignment => do return .assignment (← text "name") (← node "value")
  | .indexedAssignment => do
    return .indexedAssignment (← node "target") (← node "index") (← node "value")
  | .functionDef => do
    return .functionDef (← text "name") (← fs.withDefault "params" Reading.texts? [])
      (← nodes "body")
  | .ret => do return .ret (← fs.withDefault "value" Reading.optionalNode? none)
  | .breakLoop => some .breakLoop
  | .conditional => do
    return .conditional (← node "condition") (← nodes "then_block")
      (← fs.withDefault "else_block" Reading.nodes [])
  | .loop => do return .loop (← node "condition") (← nodes "body")
  | .listLiteral => do return .listLiteral (← nodes "elements")
  | .index => do return .index (← node "list") (← node "index")
  | .memberAccess => do return .memberAccess (← node "object") (← text "member")
  | .structDef => do return .structDef (← text "name") (← fs.required "fields" Reading.texts?)
  | .structLiteral => do return .structLiteral (← text "name") (← nodes "args")
  | .interrogative => do return .interrogative (← text "word") (← node "target")
  | .relation => do return .relation (← node "callee") (← node "argument")
  | .importModule => do return .importModule (← text "module")

/-- The node of an object: one field names the kind, the others are looked up by name. -/
def ofObject? (parts : List (Option String × Reading)) : Option Node :=
  match parts.filter fun (name, _) => name = some "kind" with
  | [(_, tag)] => do
    let kind ← Kind.ofJson? tag.json
    ofFields? kind (← Fields.ofObject? kind.fields parts)
  | _ => none

/-- The node of an array: the kind, then its fields. -/
def ofArray? : List Reading → Option Node
  | tag :: parts => do
    let kind ← Kind.ofJson? tag.json
    ofFields? kind (← Fields.ofArray? kind.fields parts)
  | [] => none

end Node

mutual

/-- A value read as a part of a node. -/
def Reading.ofJson : Json → Reading
  | .array items =>
    let parts := Reading.ofItems items
    { json := .array items, node := Node.ofArray? parts, nodes := parts.mapM (·.node) }
  | .object fields =>
    { json := .object fields, node := Node.ofObject? (Reading.ofFields fields), nodes := none }
  | json => { json, node := none, nodes := none }

/-- The elements of an array as parts. -/
def Reading.ofItems : List Json → List Reading
  | [] => []
  | item :: rest => Reading.ofJson item :: Reading.ofItems rest

/-- The fields of an object as parts. -/
def Reading.ofFields : List (Option String × Json) → List (Option String × Reading)
  | [] => []
  | (name, value) :: rest => (name, Reading.ofJson value) :: Reading.ofFields rest

end

/-- Whether the kind of a node is given by name. -/
def Json.namesKind : Json → Bool
  | .array (tag :: _) => tag.text?.isSome
  | .object fields => fields.all fun (name, value) => name != some "kind" || value.text?.isSome
  | _ => false

/-- A statement of a unit. Its whole content has to be sound, fields that nobody asks for included,
and its kind is given by name. -/
def Node.ofStatement? (json : Json) : Option Node :=
  if json.sound && json.namesKind then (Reading.ofJson json).node else none

/-- The fields of a record in either form. -/
def Json.fieldsOf? (names : List String) : Json → Option (Fields Json)
  | .object fields =>
    if fields.all (·.1.isSome) then Fields.ofObject? names fields else none
  | .array items => Fields.ofArray? names items
  | _ => none

/-- A string, or `null`. -/
def Json.optionalText? : Json → Option (Option String)
  | .null => some none
  | .text value => value.map some
  | _ => none

/-- The elements of an array, each read by `read`. -/
def Json.items? {α : Type} (read : Json → Option α) : Json → Option (List α)
  | .array items => items.mapM read
  | _ => none

/-- The fields of an import in order. -/
def Import.fields : List String := ["module", "path"]

/-- An import. -/
def Import.ofJson? (json : Json) : Option Import := do
  let fs ← json.fieldsOf? Import.fields
  return { module := ← fs.required "module" Json.text?,
           path := ← fs.withDefault "path" Json.optionalText? none }

/-- The fields of a unit in order. -/
def SourceUnit.fields : List String := ["statements", "observed", "imports", "module"]

/-- The unit that a value stands for. -/
def SourceUnit.decode? (json : Json) : Option SourceUnit := do
  let fs ← json.fieldsOf? SourceUnit.fields
  return { statements := ← fs.required "statements" (Json.items? Node.ofStatement?),
           observed := ← fs.withDefault "observed" Json.texts? [],
           imports := ← fs.withDefault "imports" (Json.items? Import.ofJson?) [],
           module := ← fs.withDefault "module" Json.optionalText? none }

/-- The deepest nesting of a document, the unit itself being the first level. -/
def maxNesting : Nat := 127

/-- The statements of a document, which stand two levels inside it, are not nested too deeply. -/
def Json.isShallow (json : Json) : Bool :=
  match (json.fieldsOf? SourceUnit.fields).bind (·.lookup "statements") with
  | some (.array items) => items.all fun item => item.nesting + 2 ≤ maxNesting
  | _ => true

/-- A unit from the value of its document. -/
def SourceUnit.ofJson? (json : Json) : Option SourceUnit :=
  if json.isShallow then SourceUnit.decode? json else none

/-- A unit from the text of its document. -/
def SourceUnit.read? (text : String) : Option SourceUnit :=
  (Json.read? text).bind SourceUnit.ofJson?

end ScriptCompiler
