import Mathlib.Logic.Relation
import ScriptCompiler.Ir.Check
import ScriptCompiler.Lowering.Generate
import ScriptCompiler.Proofs.Frugal.Text
import ScriptCompiler.Proofs.Names

/-!
# Stages of a function under construction

Lowering writes a function block after block, at the end of the last block, and puts stack slots at
the head of the first one. A *stage* is the state of the lowering together with what the lowering
itself does not write down: the layout of the function so far, the labels that are handed out and
not used yet, and, for every block, the registers of earlier blocks that it may still read.

`Move` is one change inside the current block and `Step` is a move, a new label, a jump into a new
block, or the start or end of a loop. Each of them carries all that is known of the instruction it
writes: its operands are in scope with the types they have there, its types are right, and what it
calls, reads or writes is one of a few things. Statements about generated code are invariants of
`Step`, and that lowering proceeds by steps is proved once.
-/

namespace ScriptCompiler

namespace Ir

/-- Registers with their types. -/
abbrev Typing := List (Reg × Ty)

/-- The register that an instruction defines, with its type. -/
def Instr.definition? (i : Instr) : Option (Reg × Ty) :=
  i.dst?.bind fun r => i.resultType?.map fun ty => (r, ty)

/-- The registers that instructions define. -/
def typing (instrs : List Instr) : Typing := instrs.filterMap Instr.definition?

/-- The type of what is loaded and stored: a number, an address or a word. -/
def Ty.isStorable : Ty → Bool
  | .double | .ptr | .i64 => true
  | _ => false

namespace Value

/-- A value that is a register is one of those given, with its type. -/
def RegIn (v : Value) (known : Typing) : Prop := ∀ r, v.op = .reg r → (r, v.ty) ∈ known

/-- A value that is no register has a type that fits it, and the address of a global is that of one
of those given. -/
def Sane (v : Value) (globals : List Global) : Prop :=
  match v.op with
  | .reg _ => True
  | .int _ => v.ty.isInt
  | .float _ => v.ty = .double
  | .null => v.ty = .ptr
  | .global name => v.ty = .ptr ∧ name ∈ globals.map (·.name)

end Value

end Ir

namespace Catalog

/-- The functions that reserve memory which the end of a program frees, each with the function that
frees it. -/
def owners : List (String × String) :=
  [(boxCreate, boxDestroy), (listCreate, listDestroy), (stringCreate, stringDestroy),
    (stringConcat, stringDestroy), (numberToString, stringDestroy)]

/-- The functions that reserve or free such memory. -/
def owning : List String := owners.map (·.1) ++ releasing

/-- The functions that reserve memory or free it. -/
def costly : List String := allocating ++ releasing

theorem owning_subset_costly : owning ⊆ costly := by decide

end Catalog

theorem Text.startsWith_append (part text : String) : Text.startsWith part (part ++ text) = true := by
  simp [Text.startsWith, String.toList_append]

namespace Lowering

open Ir

theorem run_bind {α β : Type} {ctx : Context} {s s' : State} {m : Lower α} {f : α → Lower β}
    {b : β} (h : (m >>= f) ctx s = .ok (b, s')) :
    ∃ a s₁, m ctx s = .ok (a, s₁) ∧ f a ctx s₁ = .ok (b, s') := by
  change (m ctx s >>= fun p => f p.1 ctx p.2) = _ at h
  cases hm : m ctx s with
  | error e => rw [hm] at h; simp [Bind.bind, Except.bind] at h
  | ok p =>
    rw [hm] at h
    exact ⟨p.1, p.2, rfl, h⟩

theorem run_get {β : Type} {ctx : Context} {s : State} (f : State → Lower β) :
    (get >>= f) ctx s = f s ctx s :=
  rfl

theorem run_read {β : Type} {ctx : Context} {s : State} (f : Context → Lower β) :
    (read >>= f) ctx s = f ctx ctx s :=
  rfl

/-- The types that a value of a kind may have. -/
def Kind.Fits : Kind → Ty → Prop
  | .scalar, ty => ty = .bool ∨ ty = .double
  | .packed, ty => ty = .i64
  | .tracked, ty | .list, ty | .text, ty | .struct _, ty => ty = .ptr

/-- The kinds of the values that a variable of a storage class gives back. -/
def StorageClass.Holds : StorageClass → Kind → Prop
  | .fastSlot, kind => kind = .scalar
  | .packedSlot, kind => kind = .packed
  | .stackBox, kind | .heapBox, kind | .borrowed, kind => kind = .tracked
  | .handle, kind => kind.Fits .ptr ∧ kind ≠ .tracked

/-- The label of a block that nothing jumps to. -/
def IsDead (label : String) : Prop := ∃ k : Nat, label = "dead" ++ "_" ++ toString k

/-- A symbol that generated code reads or writes as a variable of a type: the storage of a variable
of the unit, or the exported word of one whose name satisfies `P`. -/
inductive IsVariable (P : String → Prop) (n : Naming) (globals : List Global) (symbol : String) :
    Ty → Prop where
  | own {ty : Ty} (name : String) (h : symbol = n.globalSymbol name)
      (mem : ∃ d ∈ globals, d.name = symbol ∧ d.ty = ty) : IsVariable P n globals symbol ty
  | exported (name : String) (named : P name) (h : n.exportSymbol? name = some symbol)
      (mem : symbol ∈ globals.map (·.name)) : IsVariable P n globals symbol .i64

/-- The symbol of something of another module, made of names that satisfy `P`. -/
def IsExternal (P : String → Prop) (symbol : String) : Prop :=
  P symbol ∨ ∃ module member, P module ∧ P member ∧ symbol = memberSymbol module member

/-- The state is that of the entry function of a program, where reserved memory is noted. -/
def Tracks (ctx : Context) (s : State) : Prop :=
  s.scope = .topLevel ∧ ctx.naming.isLibrary = false

/-- Code at top level may leave a symbol to the linker. -/
def Naming.mayImport (n : Naming) (symbol : String) : Bool :=
  symbol ∈ n.importedNames ||
    n.importedModules.any fun module => Text.startsWith (module ++ "_") symbol

/-- The symbol is one that code may leave to the linker in a state. -/
def Defers (ctx : Context) (s : State) (symbol : String) : Prop :=
  s.scope = .topLevel → ctx.naming.mayImport symbol = true

/-- What is known of the text that is lowered: of all its names, of the variables that it reads and of
those that it assigns, which functions are noted before, and whether it makes numbers and words
only. -/
structure Lexicon where
  named : String → Prop
  read : String → Prop
  assigned : String → Prop
  noted : List Routine
  thrift : Option Thrift

namespace Lexicon

instance : CoeFun Lexicon fun _ => String → Prop := ⟨named⟩

instance : Coe Lexicon (String → Prop) := ⟨named⟩

/-- Only the names are known. -/
def of (p : String → Prop) : Lexicon := ⟨p, fun _ => True, fun _ => True, [], none⟩

/-- Nothing is known. -/
abbrev any : Lexicon := of fun _ => True

/-- The symbol is that of no function that is noted before. -/
def Unnoted (P : Lexicon) (symbol : String) : Prop := ∀ r ∈ P.noted, r.symbol ≠ symbol

theorem of_thrift {p : String → Prop} {T : Thrift} {q : Prop} (h : (of p).thrift = some T) : q :=
  nomatch h

/-- The text may make values that need memory. -/
def Costs (P : Lexicon) : Prop := P.thrift = none

/-- The functions of the unit that are defined by that name are known. -/
def defines (P : Lexicon) (name : String) : Prop := ∀ T, P.thrift = some T → name ∈ T.defined

/-- What is known holds of the names in an expression, and of the values that it makes. -/
structure Covers (P : Lexicon) (names reads : List String) (allows : Thrift → Bool) : Prop where
  named : ∀ name ∈ names, P name
  read : ∀ name ∈ reads, P.read name
  allowed : ∀ T, P.thrift = some T → allows T = true

section

variable {P : Lexicon} {names names' reads reads' : List String} {allows allows' : Thrift → Bool}

theorem costs_of_not (h : ∀ T, P.thrift ≠ some T) : P.Costs := Option.eq_none_iff_forall_ne_some.mpr h

theorem Covers.costs (h : P.Covers names reads allows) (hnot : ∀ T, allows T = false) : P.Costs :=
  costs_of_not fun T hT => by simpa [hnot T] using h.allowed T hT

theorem Covers.mono (h : P.Covers names reads allows) (hnames : names' ⊆ names)
    (hreads : reads' ⊆ reads)
    (hallows : ∀ T, P.thrift = some T → allows T = true → allows' T = true) :
    P.Covers names' reads' allows' :=
  ⟨fun name hname => h.named name (hnames hname), fun name hname => h.read name (hreads hname),
    fun T hT => hallows T hT (h.allowed T hT)⟩

theorem Covers.split (h : P.Covers (names ++ names') (reads ++ reads') fun T => allows T && allows' T) :
    P.Covers names reads allows ∧ P.Covers names' reads' allows' :=
  ⟨h.mono (List.subset_append_left _ _) (List.subset_append_left _ _) fun _ _ ha =>
      (Bool.and_eq_true_iff.mp ha).1,
    h.mono (List.subset_append_right _ _) (List.subset_append_right _ _) fun _ _ ha =>
      (Bool.and_eq_true_iff.mp ha).2⟩

theorem Covers.loose (h : P.Covers names reads allows) (hcosts : P.Costs) (allows' : Thrift → Bool) :
    P.Covers names reads allows' :=
  { h with allowed := fun _ hT => nomatch hcosts.symm.trans hT }

theorem covers_of {p : String → Prop} (h : ∀ name ∈ names, p name) (reads : List String)
    (allows : Thrift → Bool) : (of p).Covers names reads allows :=
  ⟨h, fun _ _ => trivial, nofun⟩

theorem covers_any (names reads : List String) (allows : Thrift → Bool) :
    any.Covers names reads allows :=
  covers_of (fun _ _ => trivial) reads allows

end

end Lexicon

/-- A function that generated code calls with arguments of the given types, other than one that
reserves or frees memory. -/
inductive Callable (ctx : Context) (P : Lexicon) (s : State) : Ty → String → List Ty → Prop where
  /-- Initializers come first, so that their number bounds what stands before one. -/
  | initializer {module : String} (h : module ∈ ctx.naming.initialized)
      (top : s.scope = .topLevel)
      (early : s.builder.func.instrs.length < ctx.naming.initialized.length) :
      Callable ctx P s .void (initSymbol module) []
  /-- Memory for a struct is never freed. -/
  | catalogued {e : Catalog.Entry} (mem : e ∈ Catalog.catalog)
      (free : e.name ∉ Catalog.costly ∨ e.name = Catalog.malloc ∧ P.Costs) :
      Callable ctx P s (e.ret.lower ctx.target) e.name (e.params.map (·.lower ctx.target))
  | routine {r : Routine} (mem : r ∈ s.functions) :
      Callable ctx P s .i64 r.symbol (List.replicate r.params.length .i64)
  | external {symbol : String} {arity : Nat} (mem : (symbol, arity) ∈ s.externals.functions) :
      Callable ctx P s .i64 symbol (List.replicate arity .i64)

/-- A function under construction, with the state of the lowering. -/
structure Stage where
  /-- The head of the entry block: its stack slots. -/
  head : List Instr
  /-- The complete blocks; the entry block is without its head. -/
  done : List Block
  /-- The label of the current block. -/
  label : String
  /-- The instructions of the current block. -/
  instrs : List Instr
  /-- The labels that are handed out and that no block has yet. -/
  reserved : List String
  /-- The registers of earlier blocks that a block may read. -/
  live : String → Typing
  state : State

namespace Stage

/-- The function as far as it is built. -/
def func (g : Stage) : Func := g.state.builder.func

/-- The next free register. -/
def next (g : Stage) : Reg := g.state.builder.nextReg

/-- The globals so far. -/
def globals (g : Stage) : List Global := g.state.assembly.globals

/-- The registers that every block may read: parameters and stack slots. -/
def frame (g : Stage) : Typing := g.func.params ++ typing g.head

/-- The registers in scope at the end of the current block. -/
def scope (g : Stage) : Typing := g.frame ++ g.live g.label ++ typing g.instrs

/-- The blocks without the head of the first one. -/
def body (g : Stage) : List Block := g.done ++ [⟨g.label, g.instrs⟩]

/-- The blocks of a function from its head and its blocks without it. -/
def withHead (head : List Instr) : List Block → List Block
  | [] => []
  | b :: rest => { b with instrs := head ++ b.instrs } :: rest

/-- The labels of the blocks. -/
def labels (g : Stage) : List String := g.body.map (·.label)

/-- The labels that the blocks jump to. -/
def targets (g : Stage) : List String := (g.body.flatMap (·.instrs)).flatMap Instr.successors

/-- A value that the next instruction may read. -/
def Has (g : Stage) (v : Value) : Prop := v.RegIn g.scope ∧ v.Sane g.globals

/-- A value that the next instruction may read, of a type that fits its kind. A string needs memory. -/
structure Holds (g : Stage) (P : Lexicon) (v : Typed) : Prop where
  has : g.Has v.value
  fits : v.kind.Fits v.value.ty
  costs : v.kind = .text → P.Costs

/-- The address of a variable of the given type. -/
def Cell (ctx : Context) (P : Lexicon) (g : Stage) (v : Value) (ty : Ty) : Prop :=
  v.ty = .ptr ∧ match v.op with
    | .reg r => .alloca r ty ∈ g.head
    | .global name => IsVariable P ctx.naming g.globals name ty
    | _ => False

/-- The address of a variable of another module, which is a word. -/
def Outside (g : Stage) (v : Value) (ty : Ty) : Prop :=
  ∃ symbol ∈ g.state.externals.vars, v = .global symbol ∧ ty = .i64 ∧
    ∃ d ∈ g.globals, d.name = symbol ∧ d.ty = .i64

/-- The address of a field, computed in the current block. -/
def Field (g : Stage) (v : Value) : Prop :=
  v.ty = .ptr ∧ ∃ r element base index, v.op = .reg r ∧ .gep r element base index ∈ g.instrs

/-- The address of memory from which a value of the given type is loaded, and to which it is
stored. -/
def Place (ctx : Context) (P : Lexicon) (g : Stage) (v : Value) (ty : Ty) : Prop :=
  (ty.isStorable ∧ g.Cell ctx P v ty) ∨ (ty = .i64 ∧ g.Field v)

/-- A variable whose slot and kind are as its storage class says. -/
structure Binds (ctx : Context) (P : Lexicon) (g : Stage) (b : Binding) : Prop where
  held : b.storage.Holds b.kind
  cell : g.Cell ctx P b.slot b.storage.slotType
  costs : b.kind = .text → P.Costs

/-- What an instruction accesses or calls is known. Variables of other modules are not stored to, and
stack slots are not reserved in a block. -/
def Shape (ctx : Context) (P : Lexicon) (g : Stage) : Instr → Prop
  | .load _ ty ptr => g.Place ctx P ptr ty ∨ g.Outside ptr ty
  | .store value ptr => g.Place ctx P ptr value.ty
  | .call _ ret callee args => Callable ctx P g.state ret callee (args.map (·.ty))
  | .alloca .. => False
  | _ => True

/-- An instruction that may come next in the current block. -/
structure Admits (ctx : Context) (P : Lexicon) (g : Stage) (i : Instr) : Prop where
  operands : ∀ v ∈ i.operands, g.Has v
  types : i.expected? g.func.ret = none
  shape : g.Shape ctx P i

/-! ## What a move does -/

/-- The stage with another builder. -/
def build (g : Stage) (b : Builder) : Stage := { g with state := { g.state with builder := b } }

/-- The builder with the next register taken. -/
def taken (g : Stage) : Builder := { g.state.builder with nextReg := g.next + 1 }

/-- An instruction that defines the next register is added. -/
def define (g : Stage) (i : Instr) : Stage :=
  { g with instrs := g.instrs ++ [i] }.build (g.taken.push i)

/-- A conversion is added, and noted. -/
def convert (g : Stage) (op : CastOp) (v : Value) (target : Ty) : Stage :=
  { g with instrs := g.instrs ++ [Instr.cast g.next op v target] }.build
    (Builder.push { g.taken with casts := (g.next, op, v) :: g.state.builder.casts }
      (.cast g.next op v target))

/-- An instruction that defines no register is added. -/
def effect (g : Stage) (i : Instr) : Stage :=
  { g with instrs := g.instrs ++ [i] }.build (g.state.builder.push i)

/-- A stack slot is added. -/
def slot (g : Stage) (ty : Ty) : Stage :=
  { g with head := g.head ++ [Instr.alloca g.next ty] }.build
    (g.taken.pushEntry (.alloca g.next ty))

/-- A stack slot is added that starts as null. -/
def nullSlot (g : Stage) (ty : Ty) : Stage :=
  { g with head := g.head ++ [Instr.alloca g.next ty, .store .null (.reg g.next .ptr)] }.build
    ((g.taken.pushEntry (.alloca g.next ty)).pushEntry (.store .null (.reg g.next .ptr)))

/-- A global is added. -/
def declare (g : Stage) (d : Global) : Stage :=
  { g with state := { g.state with assembly := g.state.assembly.addGlobal d } }

/-- The global that the next noted address goes to. -/
def cleanupSlot (g : Stage) : String := "__cleanup." ++ toString g.state.cleanup.length

/-- Memory is reserved. -/
def allocate (g : Stage) (callee : String) (args : List Value) : Stage :=
  g.define (.call (some g.next) .ptr callee args)

/-- Memory is reserved, and its address is noted to be freed at the end. -/
def reserve (g : Stage) (callee : String) (args : List Value) (destroy : String) : Stage :=
  let g' := ((g.allocate callee args).declare
    { name := g.cleanupSlot, ty := .ptr, visibility := .hidden, init := some .null }).effect
      (.store (.reg g.next .ptr) (.global g.cleanupSlot))
  { g' with state := { g'.state with cleanup := g.state.cleanup ++ [⟨g.cleanupSlot, destroy⟩] } }

/-- A noted address is freed. -/
def release (g : Stage) (entry : Cleanup) : Stage :=
  (g.define (.load g.next .ptr (.global entry.slot))).effect
    (.call none .void entry.destroy [.reg g.next .ptr])

/-- The constant that is added for a text as the one of a number. -/
def textConstant (k : Nat) (text : String) : Global where
  name := ".str." ++ toString k
  ty := .array (text.toUTF8.toList ++ [0]).length .i8
  visibility := .hidden
  init := some (.bytes (text.toUTF8.toList ++ [0]))
  constant := true

/-- A function of the unit as it is noted. -/
structure Fits (ctx : Context) (P : Lexicon) (r : Routine) : Prop where
  symbol : r.symbol = ctx.naming.functionSymbol r.name
  named : ∀ name ∈ Node.namesAll r.body, P name
  thrifty : ∀ T, P.thrift = some T → T.Fits r

/-- The state is changed in what code generation does not depend on. -/
structure SameCode (ctx : Context) (P : Lexicon) (s s' : State) : Prop where
  builder : s'.builder = s.builder
  assembly : s'.assembly = s.assembly
  externals : s'.externals = s.externals
  scope : s'.scope = s.scope
  globals : s'.globals = s.globals
  locals : s'.locals = s.locals
  loopEnds : s'.loopEnds = s.loopEnds
  cleanup : s'.cleanup = s.cleanup
  labels : s'.labels = s.labels
  strings : s'.strings = s.strings
  kept : s.functions <+: s'.functions
  added : ∀ r ∈ s'.functions, r ∈ s.functions ∨ Fits ctx P r
  /-- No two functions have one name. -/
  distinct : (s.functions.map (·.name)).Nodup → (s'.functions.map (·.name)).Nodup

theorem SameCode.refl (ctx : Context) (P : Lexicon) (s : State) : SameCode ctx P s s :=
  ⟨rfl, rfl, rfl, rfl, rfl, rfl, rfl, rfl, rfl, rfl, List.prefix_rfl, fun _ hr => .inl hr, id⟩

/-- A change inside the current block. `P` is what is known of the text. -/
inductive Move (ctx : Context) (P : Lexicon) : Stage → Stage → Prop where
  /-- An instruction defines the next register. -/
  | define {g : Stage} (i : Instr) (dst : i.dst? = some g.next) (admits : g.Admits ctx P i) :
      Move ctx P g (g.define i)
  /-- A value is converted. -/
  | convert {g : Stage} (op : CastOp) (v : Value) (target : Ty) (has : g.Has v)
      (fits : op.fits v.ty target) : Move ctx P g (g.convert op v target)
  /-- An instruction defines nothing. -/
  | effect {g : Stage} (i : Instr) (dst : i.dst? = none) (inner : i.isTerminator = false)
      (admits : g.Admits ctx P i) : Move ctx P g (g.effect i)
  | slot {g : Stage} (ty : Ty) (costs : ty = .named recordTypeName → P.Costs) :
      Move ctx P g (g.slot ty)
  | nullSlot {g : Stage} : Move ctx P g (g.nullSlot .ptr)
  /-- Memory is reserved where nothing is freed at the end. -/
  | allocate {g : Stage} (e : Catalog.Entry) (destroy : String) (args : List Value)
      (mem : e ∈ Catalog.catalog) (owner : (e.name, destroy) ∈ Catalog.owners)
      (has : ∀ v ∈ args, g.Has v) (types : args.map (·.ty) = e.params.map (·.lower ctx.target))
      (untracked : ¬ Tracks ctx g.state) (costs : P.Costs) : Move ctx P g (g.allocate e.name args)
  /-- Memory is reserved in the entry function of a program. -/
  | reserve {g : Stage} (e : Catalog.Entry) (destroy : String) (args : List Value)
      (mem : e ∈ Catalog.catalog) (owner : (e.name, destroy) ∈ Catalog.owners)
      (has : ∀ v ∈ args, g.Has v) (types : args.map (·.ty) = e.params.map (·.lower ctx.target))
      (tracked : Tracks ctx g.state) (costs : P.Costs) :
      Move ctx P g (g.reserve e.name args destroy)
  /-- Memory is freed at the end of a program. -/
  | release {g : Stage} (entry : Cleanup) (mem : entry ∈ g.state.cleanup)
      (last : g.label = exitLabel) (tracked : Tracks ctx g.state) : Move ctx P g (g.release entry)
  /-- A string constant is added. -/
  | constant {g : Stage} (text : String) :
      Move ctx P g
        { g with state := { (g.declare (textConstant g.state.strings text)).state with
            strings := g.state.strings + 1 } }
  /-- The storage of a variable at top level is added. -/
  | storage {g : Stage} (name : String) (named : P name) (storage : StorageClass) (init : Init)
      (top : g.state.scope = .topLevel) (assigned : P.assigned name) :
      Move ctx P g (g.declare
        { name := ctx.naming.globalSymbol name, ty := storage.slotType,
          visibility := ctx.naming.globalVisibility (ctx.naming.globalSymbol name),
          init := some init })
  /-- The exported word of a variable is added. -/
  | exported {g : Stage} (name symbol : String) (named : P name)
      (h : ctx.naming.exportSymbol? name = some symbol)
      (absent : g.state.assembly.hasSymbol symbol = false)
      (top : g.state.scope = .topLevel) (assigned : P.assigned name) (unnoted : P.Unnoted symbol) :
      Move ctx P g (g.declare
        { name := symbol, ty := .i64, visibility := ctx.naming.globalVisibility symbol,
          init := some (.int 0) })
  /-- A variable of another module is used. -/
  | useVariable {g : Stage} (symbol : String) (e : Externals) (a : Assembly)
      (named : IsExternal P symbol)
      (h : g.state.externals.useVariable g.state.assembly symbol = .ok (e, a))
      (defers : Defers ctx g.state symbol) (unnoted : P.Unnoted symbol) :
      Move ctx P g { g with state := { g.state with externals := e, assembly := a } }
  /-- A function of another module is used. -/
  | useFunction {g : Stage} (symbol : String) (asked arity : Nat) (e : Externals) (a : Assembly)
      (named : IsExternal P symbol)
      (h : g.state.externals.useFunction g.state.assembly symbol asked = .ok (arity, e, a))
      (defers : Defers ctx g.state symbol) (unnoted : P.Unnoted symbol) :
      Move ctx P g { g with state := { g.state with externals := e, assembly := a } }
  /-- A variable is bound. -/
  | bind {g : Stage} (name : String) (b : Binding) (binds : g.Binds ctx P b) :
      Move ctx P g { g with state := g.state.bind name b }
  /-- Something else is noted. -/
  | note {g : Stage} (s : State) (same : SameCode ctx P g.state s) :
      Move ctx P g { g with state := s }

/-! ## Blocks -/

/-- A label is handed out. -/
def withLabel (g : Stage) (stem : String) : Stage :=
  let label := stem ++ "_" ++ toString g.state.labels
  { g with
    reserved := label :: g.reserved
    live := fun l => if l = label then [] else g.live l
    state := { g.state with labels := g.state.labels + 1 } }

/-- The current block is ended and a new one is begun. -/
def jump (g : Stage) (t : Instr) (label : String) (live : String → Typing)
    (reserved : List String) : Stage :=
  { g with
    done := g.done ++ [⟨g.label, g.instrs ++ [t]⟩]
    label
    instrs := []
    reserved
    live
    state := { g.state with
      builder := { (g.state.builder.push t).appendBlock label with
                   current := g.state.builder.current + 1 } } }

/-- A loop is begun, which ends at `label`. -/
def withLoop (g : Stage) (label : String) : Stage :=
  { g with state := { g.state with loopEnds := label :: g.state.loopEnds } }

/-- The innermost loop is ended. -/
def withoutLoop (g : Stage) : Stage :=
  { g with state := { g.state with loopEnds := g.state.loopEnds.tail } }

/-- What holds when the current block ends in `t` and the block `label` is begun. -/
structure Jumps (ctx : Context) (g : Stage) (t : Instr) (label : String) (live : String → Typing)
    (reserved : List String) : Prop where
  terminator : t.isTerminator = true
  operands : ∀ v ∈ t.operands, g.Has v
  types : t.expected? g.func.ret = none
  /-- Only a function and the initializer of a library return in the middle. -/
  returns : ∀ v, t = .ret v → ¬ Tracks ctx g.state
  /-- Control goes to a block that is there or will be, and not to the first one. -/
  targets : ∀ l ∈ t.successors, l ∈ g.reserved ∨ l ∈ g.labels.tail
  /-- What a target may read is in scope here. -/
  known : ∀ l ∈ t.successors, ∀ p ∈ live l, p ∈ g.scope
  /-- A block that is there may read what it could. One that is not may read nothing, or, if this is
  the first jump to it, all that is in scope here. -/
  settled : ∀ l, live l = g.live l ∨
    (l ∈ g.reserved ∧ (live l = [] ∨ (l ∉ g.targets ∧ live l = g.scope)))
  handedOut : label ∈ g.reserved
  /-- Something jumps to the new block, unless it is dead. -/
  entered : label ∈ g.targets ∨ label ∈ t.successors ∨ IsDead label
  /-- The new block is not the end of a loop that is still open. -/
  closed : label ∉ g.state.loopEnds
  remaining : ∀ l, l ∈ reserved ↔ l ∈ g.reserved ∧ l ≠ label

/-- A move, or a change of blocks. -/
inductive Step (ctx : Context) (P : Lexicon) : Stage → Stage → Prop where
  | move {g g' : Stage} (h : Move ctx P g g') : Step ctx P g g'
  | label {g : Stage} (stem : String) : Step ctx P g (g.withLabel stem)
  | jump {g : Stage} {t : Instr} {label : String} {live : String → Typing}
      {reserved : List String} (h : Jumps ctx g t label live reserved) :
      Step ctx P g (g.jump t label live reserved)
  | enterLoop {g : Stage} (label : String) (h : label ∈ g.reserved) : Step ctx P g (g.withLoop label)
  | leaveLoop {g : Stage} : Step ctx P g g.withoutLoop

/-- Any number of moves. -/
abbrev Moves (ctx : Context) (P : Lexicon) : Stage → Stage → Prop :=
  Relation.ReflTransGen (Move ctx P)

/-- Any number of steps. -/
abbrev Steps (ctx : Context) (P : Lexicon) : Stage → Stage → Prop :=
  Relation.ReflTransGen (Step ctx P)

theorem Moves.steps {ctx : Context} {P : Lexicon} {g g' : Stage} (h : Moves ctx P g g') :
    Steps ctx P g g' :=
  Relation.ReflTransGen.mono (fun _ _ => Step.move) _ _ h

end Stage

end Lowering

end ScriptCompiler
