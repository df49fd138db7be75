import ScriptCompiler.Build.Path

/-!
# Files

The files that a build reads and writes, by location. A location is the list of names that leads to
a file from the working directory; it may start with `..` for a directory above it, or with `/` for
the root. Besides files there are directories and a few devices, which the system provides. Nothing
is ever removed, and no directory is made.

A path is followed from left to right, and the first part that cannot be followed decides the fault.
-/

namespace ScriptCompiler.Build

/-- A place below, above or beside the working directory. -/
abbrev Location := List String

/-- Why the system refuses an operation. -/
inductive DiskFault where
  | notFound
  /-- What was to be run is not a program. -/
  | permissionDenied
  | notDirectory
  | isDirectory
  /-- The device takes no more text. -/
  | noSpace
  | nameTooLong
  /-- The path has a zero character, which no name can have. -/
  | zeroCharacter
deriving DecidableEq

namespace DiskFault

/-- The number of the fault; none for a path that never reaches the system. -/
def code? : DiskFault → Option Nat
  | .notFound => some 2
  | .permissionDenied => some 13
  | .notDirectory => some 20
  | .isDirectory => some 21
  | .noSpace => some 28
  | .nameTooLong => some 36
  | .zeroCharacter => none

/-- The name of the fault. -/
def name : DiskFault → String
  | .notFound => "NotFound"
  | .permissionDenied => "PermissionDenied"
  | .notDirectory => "NotADirectory"
  | .isDirectory => "IsADirectory"
  | .noSpace => "StorageFull"
  | .nameTooLong => "InvalidFilename"
  | .zeroCharacter => "InvalidInput"

/-- The wording of the fault. -/
def message : DiskFault → String
  | .notFound => "No such file or directory"
  | .permissionDenied => "Permission denied"
  | .notDirectory => "Not a directory"
  | .isDirectory => "Is a directory"
  | .noSpace => "No space left on device"
  | .nameTooLong => "File name too long"
  | .zeroCharacter => "file name contained an unexpected NUL byte"

/-- The wording with the number, if there is one. -/
def text (f : DiskFault) : String :=
  match f.code? with
  | some code => f.message ++ " (os error " ++ toString code ++ ")"
  | none => f.message

end DiskFault

/-- A file that keeps nothing. -/
inductive Device where
  /-- What is written is lost. -/
  | null
  /-- Nothing can be written. -/
  | full
  /-- What is written is printed. -/
  | stdout
  /-- What is written is printed with the error messages. -/
  | stderr
deriving DecidableEq

/-- The directories that every system has below the root. -/
def systemDirectories : List Location :=
  ["bin", "boot", "dev", "etc", "home", "lib", "media", "mnt", "opt", "proc", "root", "run", "sbin",
    "srv", "sys", "tmp", "usr", "var"].map fun name => ["/", name]

/-- The devices that every system has. -/
def systemDevices : List (Location × Device) :=
  [("null", .null), ("full", .full), ("stdout", .stdout), ("stderr", .stderr)].map
    fun (name, device) => (["/", "dev", name], device)

/-- Files with their contents, directories that may be empty, and devices. -/
structure Disk where
  files : List (Location × String) := []
  directories : List Location := systemDirectories
  devices : List (Location × Device) := systemDevices

/-- What stands at a location. -/
inductive Disk.Item where
  | file (content : String)
  | directory
  | device (device : Device)
deriving DecidableEq

/-- The longest name, in bytes. -/
def maxNameBytes : Nat := 255

/-- The longest path, in bytes. -/
def maxPathBytes : Nat := 4095

namespace Disk

/-- The contents of the file at a location. -/
def file? (d : Disk) (l : Location) : Option String := d.files.lookup l

/-- There is a directory at a location: the working directory, one above it, the root, one that is
known, or one on the way to a file. -/
def isDirectory (d : Disk) (l : Location) : Bool :=
  l.all (· == "..") || l == ["/"] || l ∈ d.directories
    || d.files.any fun (f, _) => l.length < f.length && l.isPrefixOf f

/-- What stands at a location, if anything does. -/
def get? (d : Disk) (l : Location) : Option Item :=
  match d.file? l, d.devices.lookup l with
  | some content, _ => some (.file content)
  | none, some device => some (.device device)
  | none, none => if d.isDirectory l then some .directory else none

/-- The directory above. The root is above itself. -/
def above (l : Location) : Location :=
  match l.getLast? with
  | none | some ".." => l ++ [".."]
  | some "/" => l
  | some _ => l.dropLast

/-- Where a part of a path leads from a directory. -/
def step (l : Location) : String → Except DiskFault Location
  | "" | "." => .ok l
  | ".." => .ok (above l)
  | name => if maxNameBytes < name.utf8ByteSize then .error .nameTooLong else .ok (l ++ [name])

/-- The directory that parts of a path lead to, by way of directories. -/
def walk (d : Disk) (l : Location) : List String → Except DiskFault Location
  | [] => .ok l
  | part :: rest => do
    let next ← step l part
    match d.get? next with
    | some .directory => d.walk next rest
    | some _ => .error .notDirectory
    | none => .error .notFound

/-- The directory that the last part of a path stands in, with that part. -/
def approach (d : Disk) (path : List Char) : Except DiskFault (Location × String) := do
  let (start, rest) : Location × List Char := match path with
    | '/' :: rest => (["/"], rest)
    | _ => ([], path)
  let parts := (splitAtSlashes rest).map String.ofList
  return (← d.walk start parts.dropLast, parts.getLast?.getD "")

/-- The characters of a path, unless no file can have it. -/
def pathChars (text : String) : Except DiskFault (List Char) :=
  if '\x00' ∈ text.toList then .error .zeroCharacter
  else if maxPathBytes < text.utf8ByteSize then .error .nameTooLong
  else if text.isEmpty then .error .notFound
  else .ok text.toList

/-- The location that a text names. -/
def locate (d : Disk) (text : String) : Except DiskFault Location := do
  let (directory, last) ← d.approach (← pathChars text)
  step directory last

/-- The contents of the file that a path names. There is nothing to read from a device. -/
def read (d : Disk) (p : Path) : Except DiskFault String := do
  match d.get? (← d.locate p.text) with
  | some (.file content) => return content
  | some (.device _) => return ""
  | some .directory => throw .isDirectory
  | none => throw .notFound

/-- Where text goes that is written to a path. -/
inductive Sink where
  | file (l : Location)
  | device (device : Device)
deriving DecidableEq

/-- Where text goes that is written to a path. A path that ends in a slash names a directory,
whether there is one or not. -/
def sink (d : Disk) (p : Path) : Except DiskFault Sink := do
  let cs ← pathChars p.text
  let bare := (cs.reverse.dropWhile (· == '/')).reverse
  if bare.isEmpty then throw .isDirectory
  let (directory, last) ← d.approach bare
  if bare.length < cs.length then throw .isDirectory
  let l ← step directory last
  match d.get? l with
  | some .directory => throw .isDirectory
  | some (.device device) => return .device device
  | some (.file _) | none => return .file l

/-- The disk with a file at a location. -/
def put (d : Disk) (l : Location) (content : String) : Disk :=
  { d with files := (l, content) :: d.files.filter (·.1 ≠ l) }

/-- The files that are new on a later disk, or have new contents there. -/
def changes (before after : Disk) : List (Location × String) :=
  after.files.filter fun (l, content) => before.file? l ≠ some content

end Disk

/-- The text of a location. -/
def locationText : Location → String
  | "/" :: rest => "/" ++ Text.joined "/" rest
  | l => Text.joined "/" l

end ScriptCompiler.Build
