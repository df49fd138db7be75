import ScriptCompiler.Text.Names

/-!
# Paths

A path is a text whose parts are separated by slashes. Two texts may name the same place: empty
parts and parts `.` count for nothing, but for a `.` at the start of a relative path. `key` is what
is left, and paths are told apart by it. The operations that change a path keep the rest of its text
as it was.
-/

namespace ScriptCompiler.Build

/-- A path. -/
structure Path where
  text : String
deriving DecidableEq

/-- The parts between slashes. -/
def splitAtSlashes : List Char → List (List Char)
  | [] => [[]]
  | c :: rest =>
    if c = '/' then [] :: splitAtSlashes rest
    else match splitAtSlashes rest with
      | [] => [[c]]
      | part :: others => (c :: part) :: others

/-- A name divided at its last dot, `none` when there is no dot or nothing in front of it. -/
def splitAtLastDot (name : List Char) : Option (List Char × List Char) :=
  let after := (name.reverse.takeWhile (· != '.')).reverse
  let before := name.take (name.length - after.length - 1)
  if before.isEmpty then none else some (before, after)

namespace Path

/-- A part that counts for nothing. -/
def isIdle (part : List Char) : Bool := part.isEmpty || part == ['.']

/-- What stands in front of the parts: a slash in an absolute path, a dot in a relative one that
starts with it, or nothing. The second component is the rest of the text. -/
def split (p : Path) : List Char × List Char :=
  match p.text.toList with
  | '/' :: rest => (['/'], rest)
  | ['.'] => (['.'], [])
  | '.' :: '/' :: rest => (['.'], '/' :: rest)
  | cs => ([], cs)

/-- What stands in front of the parts. -/
def front (p : Path) : List Char := p.split.1

/-- The list without the idle parts at its end. -/
def trimParts (parts : List (List Char)) : List (List Char) :=
  (parts.reverse.dropWhile isIdle).reverse

/-- The parts behind the front, without idle ones at the end. -/
def parts (p : Path) : List (List Char) := trimParts (splitAtSlashes p.split.2)

/-- A path of a front and parts. -/
def ofParts (front : List Char) (parts : List (List Char)) : Path :=
  ⟨String.ofList (front ++ List.intercalate ['/'] parts)⟩

/-- What tells paths apart: the front and the parts that count. -/
def key (p : Path) : List Char × List (List Char) :=
  (p.front, p.parts.filter fun part => !isIdle part)

/-- The last part, when it names a file or a directory. -/
def fileName? (p : Path) : Option (List Char) :=
  match p.parts.getLast? with
  | some ['.', '.'] => none
  | last => last

/-- The path of the directory around the last part. -/
def parent (p : Path) : Path := ofParts p.front (trimParts p.parts.dropLast)

/-- The file name without its extension. -/
def stem? (p : Path) : Option (List Char) :=
  p.fileName?.map fun name => ((splitAtLastDot name).map (·.1)).getD name

/-- What follows the last dot of the file name. A dot at the start of a name does not count. -/
def extension? (p : Path) : Option (List Char) :=
  p.fileName?.bind fun name => (splitAtLastDot name).map (·.2)

/-- The path with another one behind it; an absolute one takes its place. -/
def push (p : Path) (more : List Char) : Path :=
  let base := p.text.toList
  if more.head? = some '/' then ⟨String.ofList more⟩
  else if base.isEmpty || base.getLast? = some '/' then ⟨String.ofList (base ++ more)⟩
  else ⟨String.ofList (base ++ '/' :: more)⟩

/-- The path with another file name, or with one added when it has none. -/
def withFileName (p : Path) (name : List Char) : Path :=
  if p.fileName?.isSome then p.parent.push name else p.push name

/-- The path without as many characters at its end as its extension has. -/
def dropExtension (p : Path) : Path :=
  let cs := p.text.toList
  ⟨String.ofList (cs.take (cs.length - (p.extension?.getD []).length))⟩

/-- The path with the extension of its file name put in, unless it has no file name. -/
def setExtension (p : Path) (extension : String) : Path :=
  match p.stem? with
  | some stem => ofParts p.front (p.parts.dropLast ++ [stem ++ '.' :: extension.toList])
  | none => p

/-- The path with another extension. The old one is cut off the end of the text first, so that a
name of dots alone may be left, which takes none. -/
def withExtension (p : Path) (extension : String) : Path := p.dropExtension.setExtension extension

end Path

end ScriptCompiler.Build
