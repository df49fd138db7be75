import Mathlib.Data.List.InsertIdx
import ScriptCompiler.Proofs.Access.Run
import ScriptCompiler.Proofs.Stage.Code
import ScriptCompiler.Proofs.Symbols

/-!
# What code may access

An *access* describes the memory that the code of one function has to do with: the slots of its
variables, the variables at top level that it can reach, and the code itself. `Access.Allows` says
which instructions keep to it. A load reads a variable, a field or an external word; a store into the
slot of a boxed variable puts a record there that has just been made, or one that was read from
another such slot; and what is passed to a function that takes a boxed record was read from the slot
of a boxed variable. In a function the address of a boxed record is used for nothing else
(`Access.Confined`). Only at the head of a function, where its stack slots are, null is stored in them
(`Access.Prepares`).

That lowering writes only such instructions is proved step by step. `Writes P e Q` says of a step of
the builder, and `Computes` of a step of the lowering, that it only adds code, and that the new code
keeps to every access of which `P` holds and to which the finished code belongs, whatever code was
there before (`Access.Enlarges`). So what is known of a value, say that it was read from a variable, is
a fact about the finished code and stays true.
-/

namespace ScriptCompiler

open List

/-- The functions that ask a boxed record about its value or its history. -/
def Catalog.queries : List String :=
  [boxValue, boxGradient, boxStability, boxIteration, "eigen_check_converged",
    "eigen_check_diverging", "eigen_check_oscillating", "eigen_check_stable",
    "eigen_check_improving"]

/-- The functions that take a boxed record that is there already. -/
def Catalog.recordFunctions : List String := boxUpdate :: queries

namespace Lowering

open Ir

/-- The memory that the code of a function has to do with. -/
structure Access where
  scope : Scope
  /-- The variables of the function with their storage and their slots. -/
  own : String → StorageClass → Value → Prop
  /-- The variables at top level that a function can reach. -/
  outer : String → Binding → Prop
  /-- The names that may be read from outside the function. -/
  free : String → Prop
  /-- The words of other objects that may be read. -/
  external : String → Prop
  /-- The words that may be exported. -/
  publishes : String → Prop
  /-- The slots whose records a new variable of a name may share. -/
  lends : String → Value → Prop
  /-- The addresses of reserved memory are noted, to be freed in the end. -/
  notes : Prop
  /-- It matters where the addresses of boxed records go. -/
  confines : Prop
  /-- All instructions. -/
  code : List Instr

namespace Access

/-- The variables have the names of identifiers. -/
def Identified (A : Access) : Prop := ∀ name storage slot, A.own name storage slot → Dotless name

/-- A slot of a variable that the code may read. -/
inductive Cell (A : Access) : StorageClass → Value → Prop where
  | own {name : String} {storage : StorageClass} {slot : Value} (h : A.own name storage slot) :
      Cell A storage slot
  | outer {name : String} {b : Binding} (h : A.outer name b) (free : A.free name) :
      Cell A b.storage b.slot

/-- A value was read from a slot that holds an address. -/
def Reads (A : Access) (v slot : Value) : Prop :=
  ∃ dst, v = .reg dst .ptr ∧ .load dst .ptr slot ∈ A.code

/-- A value is the record of a variable. -/
def IsRecord (A : Access) (v : Value) : Prop :=
  ∃ storage slot, A.Cell storage slot ∧ storage.isTracked = true ∧ A.Reads v slot

/-- In a function, the address of a boxed record: of one in the frame, or of one that was read from a
boxed variable. -/
def Confined (A : Access) (v : Value) : Prop :=
  A.confines ∧ A.scope = .function ∧ ((∃ r, v = .reg r .ptr ∧ .alloca r (.named recordTypeName) ∈ A.code) ∨
    A.IsRecord v)

/-- A value that may be stored in the slot of the boxed variable of a name with some storage, behind
the instructions `above` of the same block. -/
inductive Boxes (A : Access) (above : List Instr) (name : String) : StorageClass → Value → Prop where
  | stack {dst : Reg} {x : Value} (reserved : .alloca dst (.named recordTypeName) ∈ A.code)
      (filled : .call none .void Catalog.boxInit [.reg dst .ptr, x] ∈ above) :
      Boxes A above name .stackBox (.reg dst .ptr)
  | heap {dst : Reg} {args : List Value} (top : A.scope = .topLevel)
      (made : .call (some dst) .ptr Catalog.boxCreate args ∈ A.code) :
      Boxes A above name .heapBox (.reg dst .ptr)
  | shared {v slot : Value} {storage : StorageClass} (cell : A.Cell storage slot)
      (tracked : storage.isTracked = true) (reads : A.Reads v slot) (lends : A.lends name slot) :
      Boxes A above name .borrowed v

/-- A value is the address of a struct that the code makes. -/
def IsObject (A : Access) (v : Value) : Prop :=
  ∃ dst args, v = .reg dst .ptr ∧ .call (some dst) .ptr Catalog.malloc args ∈ A.code

/-- An instruction keeps to an access, behind the instructions `above` of the same block. -/
inductive Allows (A : Access) (above : List Instr) : Instr → Prop where
  /-- Nothing is accessed. -/
  | compute {i : Instr} (h : i.isComputation = true) (loose : ∀ v ∈ i.operands, ¬ A.Confined v) :
      Allows A above i
  | compareNull (dst : Reg) (pred : IntPred) (v : Value) : Allows A above (.icmp dst pred v .null)
  | terminate {i : Instr} (h : i.isTerminator = true) (loose : ∀ v ∈ i.operands, ¬ A.Confined v) :
      Allows A above i
  | load {storage : StorageClass} {slot : Value} (cell : A.Cell storage slot) (dst : Reg) :
      Allows A above (.load dst storage.slotType slot)
  | loadExternal {symbol : String} (dst : Reg) (h : A.external symbol) :
      Allows A above (.load dst .i64 (.global symbol))
  | loadField {r : Reg} {element : Ty} {base index : Value} (dst : Reg) (ty : Ty)
      (field : .gep r element base index ∈ A.code) : Allows A above (.load dst ty (.reg r .ptr))
  | loadTop (top : A.scope = .topLevel) (notes : A.notes) (dst : Reg) (symbol : String) :
      Allows A above (.load dst .ptr (.global symbol))
  | storeField {r : Reg} {element : Ty} {base index value : Value}
      (field : .gep r element base index ∈ A.code) (loose : ¬ A.Confined value)
      (object : A.IsObject base) : Allows A above (.store value (.reg r .ptr))
  | storePlain {name : String} {storage : StorageClass} {slot value : Value}
      (own : A.own name storage slot) (plain : storage.isTracked = false)
      (loose : ¬ A.Confined value) : Allows A above (.store value slot)
  | storeBox {name : String} {storage : StorageClass} {slot value : Value}
      (own : A.own name storage slot) (tracked : storage.isTracked = true)
      (boxes : A.Boxes above name storage value) : Allows A above (.store value slot)
  /-- An exported word, or an address that is noted, at top level. Neither belongs to a variable. -/
  | storeTop {symbol : String} (value : Value) (top : A.scope = .topLevel)
      (kind : A.publishes symbol ∨ A.notes ∧ ∃ k, symbol = cleanupSymbol k)
      (apart : A.Identified → ∀ name storage, ¬ A.own name storage (.global symbol)) :
      Allows A above (.store value (.global symbol))
  /-- A record in the frame gets its first value. -/
  | fill {r : Reg} {x : Value} (reserved : .alloca r (.named recordTypeName) ∈ A.code)
      (loose : ¬ A.Confined x) : Allows A above (.call none .void Catalog.boxInit [.reg r .ptr, x])
  | update {name : String} {storage : StorageClass} {slot record x : Value}
      (own : A.own name storage slot) (tracked : storage.isTracked = true)
      (reads : A.Reads record slot) (loose : ¬ A.Confined x) :
      Allows A above (.call none .void Catalog.boxUpdate [record, x])
  | ask {record : Value} {callee : String} (dst : Option Reg) (ret : Ty) (h : A.IsRecord record)
      (query : callee ∈ Catalog.queries) : Allows A above (.call dst ret callee [record])
  /-- A call with words. -/
  | words {args : List Value} (dst : Reg) (callee : String) (h : ∀ v ∈ args, v.ty = .i64) :
      Allows A above (.call (some dst) .i64 callee args)
  | call {callee : String} {args : List Value} (dst : Option Reg) (ret : Ty)
      (h : callee ∉ Catalog.recordFunctions ∨ args = []) (loose : ∀ v ∈ args, ¬ A.Confined v) :
      Allows A above (.call dst ret callee args)

/-- Instructions keep to an access one after the other, behind `above`. -/
def Follows (A : Access) : List Instr → List Instr → Prop
  | _, [] => True
  | above, i :: rest => A.Allows above i ∧ A.Follows (above ++ [i]) rest

/-- An instruction at the head of a function: a stack slot, or null into one for boxed records. -/
inductive Prepares (A : Access) : Instr → Prop where
  | alloca {ty : Ty} (dst : Reg) (reserves : (∃ storage : StorageClass, ty = storage.slotType) ∨
      A.scope = .function ∧ ty = .named recordTypeName) : Prepares A (.alloca dst ty)
  | null {name : String} {storage : StorageClass} {slot : Value} (own : A.own name storage slot)
      (tracked : storage.isTracked = true) : Prepares A (.store .null slot)

/-- A first block keeps to an access, with `prepared` instructions at its head. -/
def Opens (A : Access) (prepared : Nat) (first : Block) : Prop :=
  ∃ head code, first.instrs = head ++ code ∧ head.length = prepared ∧
    (∀ i ∈ head, A.Prepares i) ∧ A.Follows head code

/-- There is a place for the next instruction of a function under construction. What was converted is
no boxed record. -/
structure Hosts (A : Access) (b : Builder) : Prop where
  once : DefinedOnce A.code
  insert : ∀ block, b.func.blocks.head? = some block → b.entryInsert ≤ block.instrs.length
  current : b.current < b.func.blocks.length
  casts : ∀ e ∈ b.casts, ¬ A.Confined e.2.2

/-- The code of a function under construction keeps to an access. -/
structure Obeys (A : Access) (b : Builder) : Prop extends A.Hosts b where
  first : ∀ block, b.func.blocks.head? = some block → A.Opens b.entryInsert block
  rest : ∀ block ∈ b.func.blocks.tail, A.Follows [] block.instrs

/-! ## Laws -/

section

variable {A : Access} {above more code : List Instr} {i : Instr}

theorem Confined.ty {v : Value} (h : A.Confined v) : v.ty = .ptr := by
  obtain ⟨-, -, ⟨r, rfl, -⟩ | ⟨storage, slot, -, -, r, rfl, -⟩⟩ := h <;> rfl

theorem not_confined_of_ty {v : Value} (h : v.ty ≠ .ptr) : ¬ A.Confined v := fun hv => h hv.ty

theorem not_confined_of_reg? {v : Value} (h : v.reg? = none) : ¬ A.Confined v := by
  rintro ⟨-, -, ⟨r, rfl, -⟩ | ⟨storage, slot, -, -, r, rfl, -⟩⟩ <;> simp [Value.reg, Value.reg?] at h

theorem not_confined_of_topLevel {v : Value} (h : A.scope = .topLevel) : ¬ A.Confined v := by
  rintro ⟨-, hscope, -⟩
  simp [h] at hscope

theorem not_confined_of_mem {r : Reg} {ty : Ty} (honce : DefinedOnce A.code) (hi : i ∈ A.code)
    (hr : i.dst? = some r) (halloca : ∀ dst ty, i ≠ .alloca dst ty)
    (hload : ∀ dst ty ptr, i ≠ .load dst ty ptr) : ¬ A.Confined (.reg r ty) := by
  rintro ⟨-, -, ⟨r', heq, hmem⟩ | ⟨storage, slot, -, -, r', heq, hmem⟩⟩ <;>
    obtain rfl : r = r' := by simpa [Value.reg] using (congrArg Value.op heq)
  · exact halloca _ _ (honce i hi _ hmem r hr rfl)
  · exact hload _ _ _ (honce i hi _ hmem r hr rfl)

theorem not_confined_of_load {r : Reg} {ty ty' : Ty} {slot : Value} (honce : DefinedOnce A.code)
    (hi : .load r ty slot ∈ A.code)
    (hplain : A.confines → ∀ storage, A.Cell storage slot → storage.isTracked = false) :
    ¬ A.Confined (.reg r ty') := by
  rintro ⟨hconfines, -, ⟨r', heq, hmem⟩ | ⟨storage, slot', hcell, htracked, r', heq, hmem⟩⟩ <;>
    obtain rfl : r = r' := by simpa [Value.reg] using (congrArg Value.op heq)
  · simpa using honce _ hi _ hmem r rfl rfl
  · obtain ⟨-, -, rfl⟩ : r = r ∧ ty = .ptr ∧ slot = slot' := by
      simpa using honce _ hi _ hmem r rfl rfl
    simp [hplain hconfines storage hcell] at htracked

theorem Boxes.mono {name : String} {storage : StorageClass} {v : Value}
    (h : A.Boxes above name storage v) (hsub : above ⊆ more) : A.Boxes more name storage v := by
  cases h with
  | stack reserved filled => exact .stack reserved (hsub filled)
  | heap top made => exact .heap top made
  | shared cell tracked reads lends => exact .shared cell tracked reads lends

theorem Allows.mono (h : A.Allows above i) (hsub : above ⊆ more) : A.Allows more i := by
  cases h with
  | compute h loose => exact .compute h loose
  | compareNull dst pred v => exact .compareNull dst pred v
  | terminate h loose => exact .terminate h loose
  | load cell dst => exact .load cell dst
  | loadExternal dst h => exact .loadExternal dst h
  | loadField dst ty field => exact .loadField dst ty field
  | loadTop top notes dst symbol => exact .loadTop top notes dst symbol
  | storeField field loose object => exact .storeField field loose object
  | storePlain own plain loose => exact .storePlain own plain loose
  | storeBox own tracked boxes => exact .storeBox own tracked (boxes.mono hsub)
  | storeTop value top kind apart => exact .storeTop value top kind apart
  | fill reserved loose => exact .fill reserved loose
  | update own tracked reads loose => exact .update own tracked reads loose
  | ask dst ret h query => exact .ask dst ret h query
  | words dst callee h => exact .words dst callee h
  | call dst ret h loose => exact .call dst ret h loose

theorem follows_append {front back : List Instr} :
    A.Follows above (front ++ back) ↔ A.Follows above front ∧ A.Follows (above ++ front) back := by
  induction front generalizing above with
  | nil => simp [Follows]
  | cons i front ih => simp [Follows, ih, and_assoc]

theorem Follows.mem (h : A.Follows above code) (hi : i ∈ code) : ∃ above, A.Allows above i := by
  induction code generalizing above with
  | nil => simp at hi
  | cons j code ih =>
    rcases mem_cons.mp hi with rfl | hi
    · exact ⟨above, h.1⟩
    · exact ih h.2 hi

theorem Follows.mono (h : A.Follows above code) (hsub : above ⊆ more) : A.Follows more code := by
  induction code generalizing above more with
  | nil => trivial
  | cons i code ih =>
    exact ⟨h.1.mono hsub, ih h.2 (append_subset.mpr
      ⟨subset_append_of_subset_left _ hsub, subset_append_right _ _⟩)⟩

end

/-! ## Builders -/

/-- One function under construction comes before another: code, registers and conversions are only
added. -/
structure Extends (b b' : Builder) : Prop where
  code : b.func.instrs ⊆ b'.func.instrs
  next : b.nextReg ≤ b'.nextReg
  casts : b.casts ⊆ b'.casts

theorem Extends.refl (b : Builder) : Extends b b :=
  ⟨List.Subset.refl _, Nat.le_refl _, List.Subset.refl _⟩

theorem Extends.trans {b b' b'' : Builder} (h : Extends b b') (h' : Extends b' b'') :
    Extends b b'' :=
  ⟨List.Subset.trans h.code h'.code, Nat.le_trans h.next h'.next,
    List.Subset.trans h.casts h'.casts⟩

/-- A block of a list in which one was changed. -/
theorem mem_modify {blocks : List Block} {k : Nat} {change : Block → Block} {block : Block}
    (h : block ∈ blocks.modify k change) :
    block ∈ blocks ∨ ∃ old ∈ blocks, block = change old := by
  induction blocks generalizing k with
  | nil => simp at h
  | cons b rest ih =>
    cases k with
    | zero =>
      rcases mem_cons.mp h with rfl | h
      · exact .inr ⟨b, by simp, rfl⟩
      · exact .inl (by simp [h])
    | succ k =>
      rcases mem_cons.mp h with rfl | h
      · exact .inl (by simp)
      · rcases ih h with h | ⟨old, hold, rfl⟩
        · exact .inl (by simp [h])
        · exact .inr ⟨old, by simp [hold], rfl⟩

theorem instrs_modify {blocks : List Block} {k : Nat} {change : Block → Block}
    (h : ∀ b, b.instrs ⊆ (change b).instrs) :
    blocks.flatMap (·.instrs) ⊆ (blocks.modify k change).flatMap (·.instrs) := by
  induction blocks generalizing k with
  | nil => simp
  | cons b rest ih =>
    cases k with
    | zero =>
      refine append_subset.mpr ⟨?_, subset_append_right _ _⟩
      exact subset_append_of_subset_left _ (h b)
    | succ k =>
      refine append_subset.mpr ⟨subset_append_left _ _, ?_⟩
      exact subset_append_of_subset_right _ ih

theorem mem_modify_of_lt {blocks : List Block} {k : Nat} (change : Block → Block)
    (h : k < blocks.length) : ∃ old ∈ blocks, change old ∈ blocks.modify k change := by
  induction blocks generalizing k with
  | nil => simp at h
  | cons b rest ih =>
    cases k with
    | zero => exact ⟨b, by simp, by simp⟩
    | succ k =>
      obtain ⟨old, hold, hmem⟩ := ih (Nat.lt_of_succ_lt_succ h)
      exact ⟨old, by simp [hold], by simp [hmem]⟩

theorem insertIdx_length (head code : List Instr) (i : Instr) :
    (head ++ code).insertIdx head.length i = head ++ [i] ++ code := by
  induction head with
  | nil => rfl
  | cons j head ih => simp [ih]

section

variable {A : Access} {b : Builder} {i : Instr}

theorem extends_push (b : Builder) (i : Instr) : Extends b (b.push i) :=
  ⟨instrs_modify fun _ => subset_append_left _ _, Nat.le_refl _, List.Subset.refl _⟩

theorem extends_pushEntry (b : Builder) (i : Instr) : Extends b (b.pushEntry i) :=
  ⟨instrs_modify fun block => subset_insertIdx block.instrs b.entryInsert i,
    Nat.le_refl _, List.Subset.refl _⟩

/-- The builder with instructions added to the current block. -/
def pushAll (b : Builder) (code : List Instr) : Builder :=
  b.modifyBlock b.current fun block => { block with instrs := block.instrs ++ code }

/-- A change to a function under construction: code that keeps to an access is added, a stack slot is
reserved, a block is begun, or something else is noted. -/
inductive Edits (A : Access) : Builder → Builder → Prop where
  | push {b : Builder} {code : List Instr} (follows : ∀ above, A.Follows above code) :
      Edits A b (pushAll b code)
  | prepare {b : Builder} {i : Instr} (prepares : A.Prepares i) : Edits A b (b.pushEntry i)
  | openBlock {b b' : Builder} {label : String}
      (opens : (b.appendBlock label).positionAtEnd label = .ok b') : Edits A b b'
  | note {b b' : Builder} (func : b'.func = b.func) (current : b'.current = b.current)
      (insert : b'.entryInsert = b.entryInsert) : Edits A b b'

/-- Any number of changes, after each of which there is a place for the next instruction. -/
def Enlarges (A : Access) : Builder → Builder → Prop :=
  Relation.ReflTransGen fun b b' => A.Edits b b' ∧ A.Hosts b'

theorem Enlarges.refl (b : Builder) : A.Enlarges b b := Relation.ReflTransGen.refl

theorem Enlarges.trans {b' b'' : Builder} (h : A.Enlarges b b') (h' : A.Enlarges b' b'') :
    A.Enlarges b b'' :=
  Relation.ReflTransGen.trans h h'

theorem Enlarges.hosts {b' : Builder} (h : A.Enlarges b b') (hb : A.Hosts b) : A.Hosts b' := by
  cases h with
  | refl => exact hb
  | tail _ hstep => exact hstep.2

namespace Hosts

theorem exists_first (h : A.Hosts b) : ∃ first rest, b.func.blocks = first :: rest ∧
    b.entryInsert ≤ first.instrs.length := by
  have hne : b.func.blocks ≠ [] := ne_nil_of_length_pos (Nat.zero_lt_of_lt h.current)
  obtain ⟨first, rest, hblocks⟩ := exists_cons_of_ne_nil hne
  exact ⟨first, rest, hblocks, h.insert first (by rw [hblocks]; rfl)⟩

theorem mem_push (h : A.Hosts b) : i ∈ (b.push i).func.instrs := by
  obtain ⟨old, -, hmem⟩ := mem_modify_of_lt (·.push i) h.current
  exact mem_flatMap.mpr ⟨_, hmem, by simp [Block.push]⟩

theorem mem_pushEntry (h : A.Hosts b) : i ∈ (b.pushEntry i).func.instrs := by
  obtain ⟨first, rest, hblocks, hle⟩ := h.exists_first
  refine mem_flatMap.mpr ⟨{ first with instrs := first.instrs.insertIdx b.entryInsert i }, ?_,
    (mem_insertIdx hle).mpr (.inl rfl)⟩
  simp [Builder.pushEntry, Builder.modifyBlock, hblocks]

theorem pushAll (h : A.Hosts b) (code : List Instr) : A.Hosts (pushAll b code) := by
  obtain ⟨first, rest, hblocks, hle⟩ := h.exists_first
  refine ⟨h.once, fun block hblock => ?_, ?_, h.casts⟩
  · cases hk : b.current with
    | zero =>
      obtain rfl : { first with instrs := first.instrs ++ code } = block := by
        simpa [Access.pushAll, Builder.modifyBlock, hblocks, hk] using hblock
      exact Nat.le_trans hle (by simp)
    | succ k =>
      obtain rfl : first = block := by
        simpa [Access.pushAll, Builder.modifyBlock, hblocks, hk] using hblock
      exact hle
  · simpa [Access.pushAll, Builder.modifyBlock] using h.current

theorem pushEntry (h : A.Hosts b) (i : Instr) : A.Hosts (b.pushEntry i) := by
  obtain ⟨first, rest, hblocks, hle⟩ := h.exists_first
  refine ⟨h.once, fun block hblock => ?_, ?_, h.casts⟩
  · obtain rfl : { first with instrs := first.instrs.insertIdx b.entryInsert i } = block := by
      simpa [Builder.pushEntry, Builder.modifyBlock, hblocks] using hblock
    show b.entryInsert + 1 ≤ (first.instrs.insertIdx b.entryInsert i).length
    rw [length_insertIdx_of_le_length hle]
    exact Nat.succ_le_succ hle
  · simpa [Builder.pushEntry, Builder.modifyBlock] using h.current

/-- A new block is empty, and there is a place in it. -/
theorem openBlock {b' : Builder} {label : String} (h : A.Hosts b)
    (hb : (b.appendBlock label).positionAtEnd label = .ok b') : A.Hosts b' := by
  unfold Builder.positionAtEnd at hb
  split at hb
  case h_2 => simp at hb
  case h_1 index hindex =>
    obtain rfl := Except.ok.inj hb
    obtain ⟨first, rest, hblocks, hle⟩ := h.exists_first
    refine ⟨h.once, fun block hblock => ?_, ?_, h.casts⟩
    · obtain rfl : first = block := by simpa [Builder.appendBlock, hblocks] using hblock
      exact hle
    · exact (List.findIdx?_eq_some_iff_findIdx_eq.mp hindex).1

theorem note {b' : Builder} (h : A.Hosts b) (hfunc : b'.func = b.func)
    (hcurrent : b'.current = b.current) (hinsert : b'.entryInsert = b.entryInsert)
    (hcasts : ∀ e ∈ b'.casts, ¬ A.Confined e.2.2) : A.Hosts b' :=
  ⟨h.once, by rw [hfunc, hinsert]; exact h.insert, by rw [hfunc, hcurrent]; exact h.current, hcasts⟩

end Hosts

namespace Enlarges

theorem pushAll {code : List Instr} (h : A.Hosts b) (hcode : ∀ above, A.Follows above code) :
    A.Enlarges b (pushAll b code) :=
  .single ⟨.push hcode, h.pushAll code⟩

theorem push (h : A.Hosts b) (hi : ∀ above, A.Allows above i) : A.Enlarges b (b.push i) :=
  Enlarges.pushAll h fun above => (⟨hi above, trivial⟩ : A.Follows above [i])

theorem pushEntry (h : A.Hosts b) (hi : A.Prepares i) : A.Enlarges b (b.pushEntry i) :=
  .single ⟨.prepare hi, h.pushEntry i⟩

theorem openBlock {b' : Builder} {label : String} (h : A.Hosts b)
    (hb : (b.appendBlock label).positionAtEnd label = .ok b') : A.Enlarges b b' :=
  .single ⟨.openBlock hb, h.openBlock hb⟩

theorem taken (h : A.Hosts b) : A.Enlarges b { b with nextReg := b.nextReg + 1 } :=
  .single ⟨.note rfl rfl rfl, h.note rfl rfl rfl h.casts⟩

theorem converted (op : CastOp) {v : Value} (h : A.Hosts b) (hv : ¬ A.Confined v) :
    A.Enlarges b { b with nextReg := b.nextReg + 1, casts := (b.nextReg, op, v) :: b.casts } :=
  .single ⟨.note rfl rfl rfl, h.note rfl rfl rfl (forall_mem_cons.mpr ⟨hv, h.casts⟩)⟩

end Enlarges

namespace Obeys

theorem exists_first (h : A.Obeys b) : ∃ first rest, b.func.blocks = first :: rest ∧
    A.Opens b.entryInsert first ∧ ∀ block ∈ rest, A.Follows [] block.instrs := by
  obtain ⟨first, rest, hblocks, -⟩ := h.toHosts.exists_first
  have hrest := h.rest
  rw [hblocks] at hrest
  exact ⟨first, rest, hblocks, h.first first (by rw [hblocks]; rfl), hrest⟩

theorem pushAll {code : List Instr} (h : A.Obeys b) (hcode : ∀ above, A.Follows above code) :
    A.Obeys (pushAll b code) := by
  obtain ⟨first, rest, hblocks, ⟨head, old, hold, hlength, hprepared, hfollows⟩, hrest⟩ :=
    h.exists_first
  refine ⟨h.toHosts.pushAll code, fun block hblock => ?_, fun block hblock => ?_⟩
  · simp only [Access.pushAll, Builder.modifyBlock, hblocks] at hblock ⊢
    cases hk : b.current with
    | zero =>
      obtain rfl : { first with instrs := first.instrs ++ code } = block := by
        simpa [hk] using hblock
      exact ⟨head, old ++ code, by simp [hold], hlength, hprepared,
        follows_append.mpr ⟨hfollows, hcode _⟩⟩
    | succ k =>
      obtain rfl : first = block := by simpa [hk] using hblock
      exact ⟨head, old, hold, hlength, hprepared, hfollows⟩
  · simp only [Access.pushAll, Builder.modifyBlock, hblocks] at hblock
    cases hk : b.current with
    | zero => exact hrest block (by simpa [hk] using hblock)
    | succ k =>
      have hblock : block ∈ rest.modify k fun b => { b with instrs := b.instrs ++ code } := by
        simpa [hk] using hblock
      rcases mem_modify hblock with hblock | ⟨before, hbefore, rfl⟩
      · exact hrest block hblock
      · exact follows_append.mpr ⟨hrest before hbefore, hcode _⟩

theorem pushEntry (h : A.Obeys b) (hi : A.Prepares i) : A.Obeys (b.pushEntry i) := by
  obtain ⟨first, rest, hblocks, ⟨head, code, hcode, hlength, hprepared, hfollows⟩, hrest⟩ :=
    h.exists_first
  refine ⟨h.toHosts.pushEntry i, fun block hblock => ?_, fun block hblock => ?_⟩
  · simp only [Builder.pushEntry, Builder.modifyBlock, hblocks, modify_zero_cons,
      List.head?_cons, Option.some.injEq] at hblock
    subst hblock
    refine ⟨head ++ [i], code, ?_, by simp [Builder.pushEntry, hlength], ?_,
      hfollows.mono (by simp)⟩
    · rw [hcode, ← hlength, insertIdx_length]
    · simpa [or_imp, forall_and] using ⟨hprepared, hi⟩
  · exact hrest block (by simpa [Builder.pushEntry, Builder.modifyBlock, hblocks] using hblock)

theorem openBlock {b' : Builder} {label : String} (h : A.Obeys b)
    (hb : (b.appendBlock label).positionAtEnd label = .ok b') : A.Obeys b' := by
  have hhosts := h.toHosts.openBlock hb
  unfold Builder.positionAtEnd at hb
  split at hb
  case h_2 => simp at hb
  case h_1 index hindex =>
    obtain rfl := Except.ok.inj hb
    obtain ⟨first, rest, hblocks, hopens, hrest⟩ := h.exists_first
    refine ⟨hhosts, fun block hblock => ?_, fun block hblock => ?_⟩
    · obtain rfl : first = block := by simpa [Builder.appendBlock, hblocks] using hblock
      exact hopens
    · have hblock : block ∈ rest ++ [⟨label, []⟩] := by
        simpa [Builder.appendBlock, hblocks] using hblock
      rcases mem_append.mp hblock with hblock | hblock
      · exact hrest block hblock
      · rw [mem_singleton.mp hblock]
        trivial

theorem enlarges {b' : Builder} (h : A.Obeys b) (hb : A.Enlarges b b') : A.Obeys b' := by
  induction hb with
  | refl => exact h
  | tail _ hstep ih =>
    obtain ⟨hedit, hhosts⟩ := hstep
    cases hedit with
    | push follows => exact ih.pushAll follows
    | prepare prepares => exact ih.pushEntry prepares
    | openBlock opens => exact ih.openBlock opens
    | note func current insert =>
      exact ⟨hhosts, by rw [func, insert]; exact ih.first, by rw [func]; exact ih.rest⟩

end Obeys

end

end Access

end Lowering

end ScriptCompiler
