import ScriptCompiler.Ir.Ty

/-!
# Target machines

A target is named by a triple such as `x86_64-unknown-linux-gnu`. The compiler needs to know little
of it: the width of an address, the byte order, and whether it is WebAssembly.
-/

namespace ScriptCompiler

/-- The order of the bytes of a word. -/
inductive Endian where
  | little
  | big
deriving DecidableEq

/-- A target machine. -/
structure Target where
  triple : String
  /-- The bits of an address. -/
  pointerWidth : Nat
  endian : Endian
  isWasm : Bool
deriving DecidableEq

namespace Target

/-- The triple of the machine that the compiler runs on. -/
def hostTriple : String := "x86_64-unknown-linux-gnu"

/-- Parts of a triple that tell a 64-bit machine, whatever else it holds. -/
def wideParts : List String := ["x86_64", "aarch64", "arm64", "wasm64", "riscv64"]

/-- Parts of a triple that tell a 32-bit machine. -/
def narrowParts : List String := ["wasm32", "i386", "i686", "armv7"]

/-- Beginnings of a triple that tell a 32-bit machine. -/
def narrowStarts : List String := ["arm-", "riscv32"]

/-- The width of an address on the machine of a triple in lower case; 64 when nothing tells. -/
def widthOf (triple : String) : Nat :=
  if wideParts.any (Text.contains · triple) then 64
  else if narrowParts.any (Text.contains · triple) || narrowStarts.any (Text.startsWith · triple)
  then 32
  else 64

/-- Architectures whose words begin with the highest byte. -/
def bigArchitectures : List String :=
  ["powerpc", "powerpc64", "ppc", "ppc64", "s390x", "mips", "mips64", "sparc", "sparc64"]

/-- The byte order of the machine of a triple in lower case, told by its first part. -/
def endianOf (triple : String) : Endian :=
  let architecture := String.ofList (triple.toList.takeWhile (· != '-'))
  if Text.endsWith "eb" architecture || Text.endsWith "_be" architecture
      || architecture ∈ bigArchitectures
  then .big else .little

/-- The machine of a triple as it stands. -/
def ofTriple (triple : String) : Target :=
  let lower := Text.asciiLower triple
  { triple, pointerWidth := widthOf lower, endian := endianOf lower,
    isWasm := Text.contains "wasm" lower }

/-- The machine that is asked for. No triple, a blank one and `host` stand for the host; blanks
around a triple do not belong to it. -/
def resolve (triple : Option String) : Target :=
  match triple with
  | some t => ofTriple (if Text.trim t = "" ∨ t = "host" then hostTriple else Text.trim t)
  | none => ofTriple hostTriple

/-- The type of sizes in memory. -/
def sizeType (t : Target) : Ir.Ty := .int t.pointerWidth

/-- The type of the words that cross calls. -/
def slotType (_ : Target) : Ir.Ty := .i64

/-- The bytes of an address. -/
def pointerBytes (t : Target) : Nat := t.pointerWidth / 8

end Target

end ScriptCompiler
