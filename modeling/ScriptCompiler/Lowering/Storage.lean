import ScriptCompiler.Error
import ScriptCompiler.Lowering.Kind

/-!
# Storage of variables

Where a variable lives, and what an assignment does to it. A number that nobody asks about takes a
plain slot and costs no call. A number whose history the program asks about is a boxed record: in
the frame inside a function, and on the heap at top level, where the end of the program frees it.
Everything here is decided from the scope and the kinds alone.
-/

namespace ScriptCompiler.Lowering

open Ir (Ty Value)

/-- Where code stands. -/
inductive Scope where
  /-- In the body of the program or of the initializer of a module. -/
  | topLevel
  /-- In the body of a function. -/
  | function
deriving DecidableEq

/-- How a variable is stored. -/
inductive StorageClass where
  /-- A slot with a number. -/
  | fastSlot
  /-- A slot with the address of a boxed record in the frame. -/
  | stackBox
  /-- A slot with the address of a boxed record on the heap. -/
  | heapBox
  /-- A slot with the address of a boxed record that another variable owns. -/
  | borrowed
  /-- A slot with the address of a list, a string or a struct. -/
  | handle
  /-- A slot with a word. -/
  | packedSlot
deriving DecidableEq

namespace StorageClass

/-- The type of the slot. -/
def slotType : StorageClass → Ty
  | .fastSlot => .double
  | .packedSlot => .i64
  | .stackBox | .heapBox | .borrowed | .handle => .ptr

/-- The slot holds the address of a boxed record. -/
def isTracked : StorageClass → Bool
  | .stackBox | .heapBox | .borrowed => true
  | .fastSlot | .handle | .packedSlot => false

end StorageClass

/-- A variable with its storage. -/
structure Binding where
  storage : StorageClass
  /-- The kind of the values that are read back. -/
  kind : Kind
  /-- The address of the slot. -/
  slot : Value
deriving DecidableEq

/-- The slot is a global, so that every function can reach it. -/
def Binding.isModuleLevel (b : Binding) : Bool := b.slot.reg?.isNone

/-- The storage of a variable on its first assignment. -/
def newStorage (scope : Scope) (observed : Bool) : Kind → StorageClass
  | .scalar => if observed then box else .fastSlot
  | .packed => if observed then box else .packedSlot
  | .tracked => .borrowed
  | .list | .text | .struct _ => .handle
where
  /-- A boxed record that lives as long as its variable. -/
  box : StorageClass :=
    match scope with
    | .function => .stackBox
    | .topLevel => .heapBox

/-- What a further assignment does. -/
inductive Update where
  /-- Store the number. -/
  | storeScalar
  /-- Give the boxed record a new value. -/
  | updateBox
  /-- Store the address of the new list, string or struct. -/
  | rebind
  /-- Store the word. -/
  | storePacked
deriving DecidableEq

/-- The name of an update in messages. -/
def Update.title : Update → String
  | .storeScalar => "StoreScalar"
  | .updateBox => "UpdateBox"
  | .rebind => "Rebind"
  | .storePacked => "StorePacked"

/-- The kind has a number to store. -/
def Kind.isNumeric : Kind → Bool
  | .scalar | .packed | .tracked => true
  | .list | .text | .struct _ => false

/-- A slot with an address of one kind takes a value of another. -/
def Kind.accepts : Kind → Kind → Bool
  | .list, .list | .text, .text | .struct _, .struct _ | _, .packed => true
  | _, _ => false

/-- What a further assignment does to a variable, from its storage, its kind and the kind of the new
value. -/
def update (storage : StorageClass) (existing incoming : Kind) : Except Error Update :=
  let decision := match storage with
    | .fastSlot => if incoming.isNumeric then some .storeScalar else none
    | .stackBox | .heapBox | .borrowed => if incoming.isNumeric then some .updateBox else none
    | .handle => if existing.accepts incoming then some .rebind else none
    | .packedSlot => some .storePacked
  match decision with
  | some update => .ok update
  | none => .error (.invalidConversion incoming.title existing.title)

/-- What an assignment does. -/
inductive Placement where
  /-- Make a variable with a storage. -/
  | new (storage : StorageClass)
  /-- Change the variable that is there. -/
  | change (update : Update)
deriving DecidableEq

/-- What an assignment does to a name, which may have a variable already. -/
def place (scope : Scope) (observed : Bool) (incoming : Kind) (existing : Option Binding) :
    Except Error Placement :=
  match existing with
  | none => .ok (.new (newStorage scope observed incoming))
  | some b => .change <$> update b.storage b.kind incoming

/-- Where a slot is. -/
inductive SlotHome where
  /-- In the frame. -/
  | stack
  /-- In a global. -/
  | moduleGlobal
deriving DecidableEq

/-- Where a new slot goes. In a library every variable at top level is a global, so that other
modules can reach it. In a program a number or a word is in the frame of the entry function unless
the body of a function reads a variable of that name. -/
def slotHome (scope : Scope) (storage : StorageClass) (library shared : Bool) : SlotHome :=
  match scope with
  | .function => .stack
  | .topLevel =>
    if library || shared then .moduleGlobal
    else match storage with
      | .fastSlot | .packedSlot | .stackBox => .stack
      | .heapBox | .borrowed | .handle => .moduleGlobal

end ScriptCompiler.Lowering
