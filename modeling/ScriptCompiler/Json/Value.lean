import ScriptCompiler.Number.Double

/-!
# JSON values

A value as a reader finds it, before anything is asked of its contents. Fields keep their order and
may repeat a name. Two kinds of literal are well-formed and yet denote nothing: a number beyond the
range of a double, and a string with half of a surrogate pair. They are kept as `none`, so that a
part of a document that nobody looks at may hold them. `sound` is the absence of both, and `nesting`
the depth of arrays and objects.
-/

namespace ScriptCompiler

/-- A JSON value. -/
inductive Json where
  | null
  | bool (value : Bool)
  /-- A number written with digits alone, at least `-2 ^ 63` and below `2 ^ 64`. -/
  | whole (value : Int)
  /-- Any other number, `none` when it is beyond the range of a double. -/
  | real (value : Option Double)
  /-- A string, `none` when its escapes leave a surrogate without its other half. -/
  | text (value : Option String)
  | array (items : List Json)
  | object (fields : List (Option String × Json))

namespace Json

mutual

/-- Every number and every string in the value denotes something. -/
def sound : Json → Bool
  | .null | .bool _ | .whole _ => true
  | .real value => value.isSome
  | .text value => value.isSome
  | .array items => soundItems items
  | .object fields => soundFields fields

/-- `sound` of every element. -/
def soundItems : List Json → Bool
  | [] => true
  | item :: rest => item.sound && soundItems rest

/-- `sound` of every field, its name included. -/
def soundFields : List (Option String × Json) → Bool
  | [] => true
  | (name, value) :: rest => name.isSome && value.sound && soundFields rest

end

mutual

/-- How deep arrays and objects stand in one another. -/
def nesting : Json → Nat
  | .null | .bool _ | .whole _ | .real _ | .text _ => 0
  | .array items => nestingItems items + 1
  | .object fields => nestingFields fields + 1

/-- The greatest `nesting` of the elements. -/
def nestingItems : List Json → Nat
  | [] => 0
  | item :: rest => max item.nesting (nestingItems rest)

/-- The greatest `nesting` of the fields' values. -/
def nestingFields : List (Option String × Json) → Nat
  | [] => 0
  | (_, value) :: rest => max value.nesting (nestingFields rest)

end

/-- The string that the value is. -/
def text? : Json → Option String
  | .text value => value
  | _ => none

/-- The strings of an array of strings. -/
def texts? : Json → Option (List String)
  | .array items => items.mapM text?
  | _ => none

/-- The number that the value is. -/
def number? : Json → Option Double
  | .whole n => some (Double.ofInt n)
  | .real value => value
  | _ => none

end Json

end ScriptCompiler
