import ScriptCompiler.Lowering.Operator

/-!
# Assignments

A first assignment makes a variable, with the storage that `newStorage` chooses (`create`); a further
one does what `update` says (`change`). `place` decides between the two, and `assign_eq` says that each
placement comes with the variable that it needs. Inside a function an assignment sees the variables of the function only. A
library keeps a word for each of its public variables at top level and renews it with every
assignment.

The first assignment to a boxed variable may stand in a loop. Then the slot starts as null, the
first pass makes the record, and the later ones give it a new value.
-/

namespace ScriptCompiler.Lowering

open Ir (Emit Init Value)

/-- The initial value of a global slot. -/
def initialValue (storage : StorageClass) : Init :=
  match storage.slotType with
  | .double => .float .zero
  | .ptr => .null
  | _ => .int 0

/-- A new slot for a variable. -/
def newSlot (name : String) (storage : StorageClass) (home : SlotHome) (inLoop : Bool) :
    Lower Value := do
  match home with
  | .stack =>
    if inLoop && storage.isTracked then Emit.allocaWith storage.slotType .null
    else Emit.alloca storage.slotType
  | .moduleGlobal =>
    let naming := (← read).naming
    let symbol := naming.globalSymbol name
    addGlobal { name := symbol, ty := storage.slotType,
                visibility := naming.globalVisibility symbol, init := some (initialValue storage) }
    return .global symbol

/-- Make a boxed record and store its address. -/
def initBox (slot : Value) (value : Typed) (home : BoxHome) : Lower Unit := do
  let record ← perform (toTracked value home)
  if home = .heap then trackAllocation record.value Catalog.boxDestroy
  Emit.store record.value slot

/-- Make a boxed record if the slot is still null, or else give the record there a new value. -/
def initBoxOnce (slot : Value) (value : Typed) (home : BoxHome) : Lower Unit := do
  let createLabel ← freshLabel "box_create"
  let updateLabel ← freshLabel "box_update"
  let joinLabel ← freshLabel "box_join"
  let current ← Emit.load .ptr slot
  let isNull ← Emit.icmp .eq current .null
  Emit.condBr isNull createLabel updateLabel
  openBlock createLabel
  initBox slot value home
  Emit.br joinLabel
  openBlock updateLabel
  let scalar ← toScalar value
  Emit.callVoid Catalog.boxUpdate [current, scalar]
  Emit.br joinLabel
  openBlock joinLabel

/-- Store the first value of a variable in its new slot, and give the kind that is read back. -/
def storeFirst (storage : StorageClass) (slot : Value) (value : Typed) (inLoop : Bool) :
    Lower Kind := do
  match storage with
  | .fastSlot =>
    let scalar ← toScalar value
    Emit.store scalar slot
    return .scalar
  | .packedSlot =>
    let word ← pack value
    Emit.store word slot
    return .packed
  | .borrowed =>
    Emit.store value.value slot
    return .tracked
  | .handle =>
    Emit.store value.value slot
    return value.kind
  | .stackBox => box .stack
  | .heapBox => box .heap
where
  /-- Store a boxed record. -/
  box (home : BoxHome) : Lower Kind := do
    if inLoop then initBoxOnce slot value home else initBox slot value home
    return .tracked

/-- Make a variable of the scope with a storage and its first value. -/
def createAs (name : String) (storage : StorageClass) (value : Typed) : Lower Unit := do
  let ctx ← read
  let s ← get
  let inLoop := !s.loopEnds.isEmpty
  let home := slotHome s.scope storage ctx.naming.isLibrary (name ∈ ctx.shared)
  let slot ← newSlot name storage home inLoop
  let kind ← storeFirst storage slot value inLoop
  modify (·.bind name { storage, kind, slot })

/-- The kind of a variable with an address after it takes a value: the type of a struct follows the
value, and a word is taken for what was there. -/
def reboundKind (existing incoming : Kind) : Kind :=
  match existing, incoming with
  | .struct _, .struct name => .struct name
  | _, _ => existing

/-- Give a variable of the scope a new value in the way of an update. -/
def changeBy (name : String) (binding : Binding) (value : Typed) : Update → Lower Unit
  | .storeScalar => do
    let scalar ← toScalar value
    Emit.store scalar binding.slot
  | .updateBox => do
    let scalar ← toScalar value
    let record ← Emit.load .ptr binding.slot
    Emit.callVoid Catalog.boxUpdate [record, scalar]
  | .rebind => do
    let kind := reboundKind binding.kind value.kind
    let coerced ← perform (coerce value kind)
    Emit.store coerced.value binding.slot
    modify (·.bind name { binding with kind })
  | .storePacked => do
    let value ← byValue value
    let word ← pack value
    Emit.store word binding.slot

/-- Define the exported word of a library's variable, unless it is there already. -/
def defineExport (symbol : String) : Lower Unit := do
  let s ← get
  if (s.assembly.global? symbol).isNone then
    if s.assembly.hasSymbol symbol || (s.routineOf? symbol).isSome then
      throw (symbolConflict symbol "exported as a variable")
    addGlobal { name := symbol, ty := .i64, visibility := (← read).naming.globalVisibility symbol,
                init := some (.int 0) }

/-- Renew the exported word of a variable at top level. -/
def publish (name : String) : Lower Unit := do
  match (← read).naming.exportSymbol? name, (← get).globals.lookup name with
  | some symbol, some binding =>
    defineExport symbol
    let current ← load binding
    let current ← byValue current
    let word ← pack current
    Emit.store word (.global symbol)
  | _, _ => return

/-- Assign a value to a name. -/
def assign (name : String) (value : Typed) : Lower Unit := do
  let s ← get
  let existing := s.own.lookup name
  match ← place s.scope (name ∈ (← read).observed) value.kind existing, existing with
  | .new storage, _ => createAs name storage value
  | .change u, some binding => changeBy name binding value u
  | .change u, none => throw (.internal (.noBinding u.title name))
  if s.scope = .topLevel then publish name
  modify fun s => { s with lastBound := some name }

/-- Make a parameter a variable of the function. -/
def bindLocal (name : String) (value : Typed) : Lower Unit := do
  match ← place (← get).scope (name ∈ (← read).observed) value.kind none with
  | .new storage => createAs name storage value
  | .change u => throw (.internal (.placedParameter name u.title))

/-- Make a variable of the scope with its first value. -/
def create (name : String) (value : Typed) : Lower Unit := do
  let ctx ← read
  let s ← get
  createAs name (newStorage s.scope (name ∈ ctx.observed) value.kind) value

/-- Give a variable of the scope a new value. -/
def change (name : String) (binding : Binding) (value : Typed) : Lower Unit := do
  let u ← update binding.storage binding.kind value.kind
  changeBy name binding value u

/-- A parameter is always a new variable. -/
theorem bindLocal_eq (name : String) (value : Typed) : bindLocal name value = create name value :=
  rfl

/-- A variable is made where there is none, and changed where there is one. -/
theorem assign_eq (name : String) (value : Typed) :
    assign name value = (do
      let s ← get
      match s.own.lookup name with
      | none => create name value
      | some binding => change name binding value
      if s.scope = .topLevel then publish name
      modify fun s => { s with lastBound := some name }) := by
  funext ctx s
  show (do
    match ← place s.scope (name ∈ ctx.observed) value.kind (s.own.lookup name),
        s.own.lookup name with
    | .new storage, _ => createAs name storage value
    | .change u, some binding => changeBy name binding value u
    | .change u, none => throw (.internal (.noBinding u.title name))
    if s.scope = .topLevel then publish name
    modify fun s => { s with lastBound := some name } : Lower Unit) ctx s = (do
    match s.own.lookup name with
    | none => create name value
    | some binding => change name binding value
    if s.scope = .topLevel then publish name
    modify fun s => { s with lastBound := some name } : Lower Unit) ctx s
  cases s.own.lookup name with
  | none => rfl
  | some binding =>
    simp only [place, change]
    cases update binding.storage binding.kind value.kind with
    | error e => rfl
    | ok u => rfl

/-- Assign to an element of a list. The list is computed first, then the index, then the value. -/
def assignElement (target index value : Lower Typed) : Lower Unit := do
  let target ← target
  let list ← match target.kind with
    | .list | .packed => perform (coerce target .list)
    | other => refuse "[]" ("only list elements can be assigned, not " ++ other.title)
  let position ← toPosition (← index)
  let scalar ← toScalar (← value)
  Emit.callVoid Catalog.listSet [list.value, position, scalar]

end ScriptCompiler.Lowering
