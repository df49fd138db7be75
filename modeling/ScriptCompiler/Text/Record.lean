import ScriptCompiler.Text.Names

/-!
# Records over several lines

A detailed report shows a value as a tree, one field or element to a line, each line of a nested
value four blanks further in and ended by a comma.
-/

namespace ScriptCompiler.Text

/-- A value to show. -/
inductive Shown where
  /-- Text shown as it is. -/
  | atom (text : String)
  /-- A name with arguments in parentheses. -/
  | applied (name : String) (arguments : List Shown)
  /-- A name with named fields in braces. -/
  | record (name : String) (fields : List (String × Shown))
  /-- Elements in brackets. -/
  | elements (items : List Shown)

/-- The parts between two brackets, none of them a line of its own when there is none. -/
def bracketed (opening closing : String) (indent : Nat) (parts : List String) : String :=
  if parts.isEmpty then opening ++ closing
  else
    let margin := String.ofList (List.replicate (4 * indent) ' ')
    opening ++ "\n" ++ lines (parts.map fun part => margin ++ "    " ++ part ++ ",")
      ++ margin ++ closing

mutual

/-- The text of a value whose first line stands at the given depth of nesting. -/
def Shown.render (indent : Nat) : Shown → String
  | .atom text => text
  | .applied name arguments =>
    name ++ bracketed "(" ")" indent (Shown.renderAll (indent + 1) arguments)
  | .record name fields =>
    name ++ " " ++ bracketed "\x7b" "\x7d" indent (Shown.renderFields (indent + 1) fields)
  | .elements items => bracketed "[" "]" indent (Shown.renderAll (indent + 1) items)

/-- The texts of several values at one depth. -/
def Shown.renderAll (indent : Nat) : List Shown → List String
  | [] => []
  | item :: rest => item.render indent :: Shown.renderAll indent rest

/-- The texts of several fields at one depth. -/
def Shown.renderFields (indent : Nat) : List (String × Shown) → List String
  | [] => []
  | (name, value) :: rest =>
    (name ++ ": " ++ value.render indent) :: Shown.renderFields indent rest

end

end ScriptCompiler.Text
