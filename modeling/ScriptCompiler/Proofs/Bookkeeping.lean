import ScriptCompiler.Proofs.Conversion.Meaning

/-!
# What a builder keeps

A builder is asked for operations in any order and with any operands (`Request`). An operation adds
instructions at two places: stack slots, with the values they start with, behind the others at the
head of the entry block (`hoisted`), whether that block is complete or not, and all else at the end
of the block that is current (`emitted`). Some operations add nothing.

`Books` ties the function to the record of what was added: the head of the entry block is what was
hoisted, the rest of each block is what was sent to it, and the registers that instructions define
are those from the parameters up to the next free one. One operation keeps it (`Books.perform`), and
so does every run (`Builder.bookkeeping`).
-/

namespace ScriptCompiler.Ir

open List

/-- An operation that a builder is asked for. -/
inductive Request where
  | appendBlock (label : String)
  | position (label : String)
  | alloca (ty : Ty)
  | allocaWith (ty : Ty) (init : Value)
  | load (ty : Ty) (ptr : Value)
  | store (value ptr : Value)
  | gep (element : Ty) (base index : Value)
  | binary (op : BinOp) (lhs rhs : Value)
  | fneg (operand : Value)
  | fcmp (pred : FloatPred) (lhs rhs : Value)
  | icmp (pred : IntPred) (lhs rhs : Value)
  | cast (op : CastOp) (value : Value) (target : Ty)
  | call (result : Ty) (callee : String) (args : List Value)
  | callVoid (callee : String) (args : List Value)
  | br (target : String)
  | condBr (cond : Value) (thenLabel elseLabel : String)
  | ret (value : Option Value)

namespace Request

/-- The builder after an operation. A label that no block has leaves it where it is. -/
def perform (b : Builder) : Request → Builder
  | .appendBlock label => b.appendBlock label
  | .position label => (b.positionAtEnd label).toOption.getD b
  | .alloca ty => (Emit.alloca ty b).2
  | .allocaWith ty init => (Emit.allocaWith ty init b).2
  | .load ty ptr => (Emit.load ty ptr b).2
  | .store value ptr => (Emit.store value ptr b).2
  | .gep element base index => (Emit.gep element base index b).2
  | .binary op lhs rhs => (Emit.binary op lhs rhs b).2
  | .fneg operand => (Emit.fneg operand b).2
  | .fcmp pred lhs rhs => (Emit.fcmp pred lhs rhs b).2
  | .icmp pred lhs rhs => (Emit.icmp pred lhs rhs b).2
  | .cast op value target => (Emit.cast op value target b).2
  | .call result callee args => (Emit.call result callee args b).2
  | .callVoid callee args => (Emit.callVoid callee args b).2
  | .br target => (Emit.br target b).2
  | .condBr cond thenLabel elseLabel => (Emit.condBr cond thenLabel elseLabel b).2
  | .ret value => (Emit.ret value b).2

/-- What an operation adds to the head of the entry block. -/
def hoisted (b : Builder) : Request → List Instr
  | .alloca ty => [.alloca b.nextReg ty]
  | .allocaWith ty init => [.alloca b.nextReg ty, .store init (.reg b.nextReg .ptr)]
  | _ => []

/-- What an operation adds to the current block. A conversion whose result is known adds nothing. -/
def emitted (b : Builder) : Request → List Instr
  | .load ty ptr => [.load b.nextReg ty ptr]
  | .store value ptr => [.store value ptr]
  | .gep element base index => [.gep b.nextReg element base index]
  | .binary op lhs rhs => [.binary b.nextReg op lhs rhs]
  | .fneg operand => [.fneg b.nextReg operand]
  | .fcmp pred lhs rhs => [.fcmp b.nextReg pred lhs rhs]
  | .icmp pred lhs rhs => [.icmp b.nextReg pred lhs rhs]
  | .cast op value target =>
    if (b.known? op value target).isSome then [] else [.cast b.nextReg op value target]
  | .call result callee args => [.call (some b.nextReg) result callee args]
  | .callVoid callee args => [.call none .void callee args]
  | .br target => [.br target]
  | .condBr cond thenLabel elseLabel => [.condBr cond thenLabel elseLabel]
  | .ret value => [.ret value]
  | .appendBlock _ | .position _ | .alloca _ | .allocaWith .. => []

end Request

namespace Builder

/-- The builder after operations, one after another. -/
def performAll (b : Builder) (requests : List Request) : Builder := requests.foldl Request.perform b

/-- What operations add to the head of the entry block, in order. -/
def hoistedBy (b : Builder) : List Request → List Instr
  | [] => []
  | r :: rest => r.hoisted b ++ (r.perform b).hoistedBy rest

/-- What operations add to blocks, in order, each instruction with the position of the block that
was current. -/
def emittedBy (b : Builder) : List Request → List (Nat × Instr)
  | [] => []
  | r :: rest => (r.emitted b).map (b.current, ·) ++ (r.perform b).emittedBy rest

/-- What was sent to the block at a position. -/
def sentTo (k : Nat) (emitted : List (Nat × Instr)) : List Instr :=
  (emitted.filter (·.1 = k)).map (·.2)

/-- The function holds what was added to it, and registers were handed out from `n` on. -/
structure Books (n : Nat) (hoisted : List Instr) (emitted : List (Nat × Instr)) (b : Builder) :
    Prop where
  head : b.entryInsert = hoisted.length
  blocks : ∀ k block, b.func.blocks[k]? = some block →
    block.instrs = (if k = 0 then hoisted else []) ++ sentTo k emitted
  placed : ∀ p ∈ emitted, p.1 < b.func.blocks.length
  registers : n ≤ b.nextReg ∧
    (registers b.func.instrs).Perm (List.range' n (b.nextReg - n))

theorem instrs_modify_perm {blocks : List Block} {k : Nat} {change : Block → Block} {old : Block}
    {i : Instr} (hold : blocks[k]? = some old)
    (hchange : (change old).instrs.Perm (i :: old.instrs)) :
    ((blocks.modify k change).flatMap (·.instrs)).Perm (i :: blocks.flatMap (·.instrs)) := by
  induction blocks generalizing k with
  | nil => simp at hold
  | cons block rest ih =>
    cases k with
    | zero =>
      obtain rfl : block = old := by simpa using hold
      exact hchange.append_right _
    | succ k => exact ((ih hold).append_left _).trans perm_middle

section

variable {n next : Nat} {hoisted : List Instr} {emitted : List (Nat × Instr)} {b : Builder}
  {i : Instr} {casts : List (Reg × CastOp × Value)}

theorem Books.registers_add {code : List Instr} (h : Books n hoisted emitted b)
    (hcode : code.Perm (i :: b.func.instrs)) (hnext : b.nextReg ≤ next)
    (hdst : i.dst?.toList = List.range' b.nextReg (next - b.nextReg)) :
    n ≤ next ∧ (Ir.registers code).Perm (List.range' n (next - n)) := by
  obtain ⟨hfirst, hregisters⟩ := h.registers
  have hrange : List.range' n (next - n) =
      List.range' n (b.nextReg - n) ++ List.range' b.nextReg (next - b.nextReg) := by
    have hlast : b.nextReg = n + (b.nextReg - n) := by omega
    have hsum : next - n = (b.nextReg - n) + (next - b.nextReg) := by omega
    rw [hsum, ← List.range'_append_1, ← hlast]
  have hadd : (Ir.registers code).Perm (i.dst?.toList ++ Ir.registers b.func.instrs) := by
    refine (hcode.filterMap Instr.dst?).trans (.of_eq ?_)
    cases hi : i.dst? <;> simp [Ir.registers, hi]
  refine ⟨Nat.le_trans hfirst hnext, ?_⟩
  rw [hrange, ← hdst]
  exact hadd.trans (perm_append_comm.trans (hregisters.append_right _))

/-- An instruction is added to the current block. -/
theorem Books.push (h : Books n hoisted emitted b) (hb : b.OnRecord) (hnext : b.nextReg ≤ next)
    (hdst : i.dst?.toList = List.range' b.nextReg (next - b.nextReg)) :
    Books n hoisted (emitted ++ [(b.current, i)])
      (Builder.push { b with nextReg := next, casts := casts } i) where
  head := h.head
  blocks := by
    intro k block hk
    obtain ⟨old, hold, rfl⟩ := Option.map_eq_some_iff.mp (List.getElem?_modify .. ▸ hk)
    have hcode := h.blocks k old hold
    by_cases hcurrent : b.current = k
    · simp [hcurrent, Block.push, hcode, sentTo]
    · simp [hcurrent, hcode, sentTo]
  placed := by
    intro p hp
    simp only [Builder.push, modifyBlock, length_modify]
    rcases mem_append.mp hp with hp | hp
    · exact h.placed p hp
    · rw [mem_singleton.mp hp]
      exact hb.current
  registers :=
    h.registers_add (instrs_modify_perm (List.getElem?_eq_getElem hb.current)
      (perm_append_singleton _ _)) hnext hdst

/-- An instruction is added to the head of the entry block. -/
theorem Books.pushEntry (h : Books n hoisted emitted b) (hb : b.OnRecord) (hnext : b.nextReg ≤ next)
    (hdst : i.dst?.toList = List.range' b.nextReg (next - b.nextReg)) :
    Books n (hoisted ++ [i]) emitted (Builder.pushEntry { b with nextReg := next } i) where
  head := by simp [Builder.pushEntry, h.head]
  blocks := by
    intro k block hk
    obtain ⟨old, hold, rfl⟩ := Option.map_eq_some_iff.mp (List.getElem?_modify .. ▸ hk)
    have hcode := h.blocks k old hold
    by_cases hk : 0 = k
    · subst hk
      simp [hcode, h.head, Lowering.Access.insertIdx_length]
    · simp [hk, Ne.symm hk, hcode]
  placed := by simpa [Builder.pushEntry, modifyBlock] using h.placed
  registers := by
    have hentry := List.getElem?_eq_getElem (Nat.zero_lt_of_lt hb.current)
    refine h.registers_add (instrs_modify_perm hentry (perm_insertIdx _ _ ?_)) hnext hdst
    rw [h.blocks 0 _ hentry, h.head]
    simp

/-- A block that is added is empty. -/
theorem Books.appendBlock {label : String} (h : Books n hoisted emitted b) (hb : b.OnRecord) :
    Books n hoisted emitted (b.appendBlock label) where
  head := h.head
  blocks := by
    intro k block hk
    simp only [Builder.appendBlock, List.getElem?_append] at hk
    split at hk
    case isTrue => exact h.blocks k block hk
    case isFalse hout =>
      have hlast : block ∈ [{ label }] := mem_of_getElem? hk
      have hunsent : sentTo k emitted = [] := by
        simp only [sentTo, map_eq_nil_iff, filter_eq_nil_iff, decide_eq_true_eq]
        exact fun p hp hpk => hout (hpk ▸ h.placed p hp)
      rw [mem_singleton.mp hlast, hunsent, if_neg (by have := hb.current; omega)]
      rfl
  placed := by
    intro p hp
    simpa [Builder.appendBlock] using Nat.lt_succ_of_lt (h.placed p hp)
  registers := by simpa [Builder.appendBlock, Func.instrs] using h.registers

theorem Books.position (h : Books n hoisted emitted b) (label : String) :
    Books n hoisted emitted ((b.positionAtEnd label).toOption.getD b) := by
  unfold positionAtEnd
  cases b.func.blocks.findIdx? (·.label = label) with
  | some index => exact { h with }
  | none => exact h

/-- One operation adds what it is to add. -/
theorem Books.perform (h : Books n hoisted emitted b) (hb : b.OnRecord) (r : Request) :
    Books n (hoisted ++ r.hoisted b) (emitted ++ (r.emitted b).map (b.current, ·))
      (r.perform b) := by
  have hnew : [b.nextReg] = List.range' b.nextReg (b.nextReg + 1 - b.nextReg) := by simp
  have hnone (r : Reg) : [] = List.range' r (r - r) := by simp
  cases r with
  | appendBlock label =>
    change Books n (hoisted ++ []) (emitted ++ []) _
    rw [append_nil, append_nil]
    exact h.appendBlock hb
  | position label =>
    change Books n (hoisted ++ []) (emitted ++ []) _
    rw [append_nil, append_nil]
    exact h.position label
  | alloca ty =>
    change Books n _ (emitted ++ []) _
    rw [append_nil]
    exact h.pushEntry hb (Nat.le_succ _) hnew
  | allocaWith ty init =>
    change Books n (hoisted ++ [_, _]) (emitted ++ []) _
    rw [append_nil, append_cons]
    have hslot := h.pushEntry hb (i := .alloca b.nextReg ty) (Nat.le_succ _) hnew
    exact hslot.pushEntry (hb.taken.pushEntry _) (Nat.le_refl _) (hnone _)
  | cast op v target =>
    change Books n (hoisted ++ []) _ _
    rw [append_nil, Request.perform, cast_run, Request.emitted]
    cases b.known? op v target with
    | some w => simpa using h
    | none => exact h.push hb (Nat.le_succ _) hnew
  | load | gep | binary | fneg | fcmp | icmp | call =>
    change Books n (hoisted ++ []) _ _
    rw [append_nil]
    exact h.push hb (Nat.le_succ _) hnew
  | store | callVoid | br | condBr | ret =>
    change Books n (hoisted ++ []) _ _
    rw [append_nil]
    exact h.push hb (Nat.le_refl _) (hnone _)

theorem OnRecord.perform (h : b.OnRecord) (r : Request) : (r.perform b).OnRecord := by
  cases r with
  | appendBlock label => exact Step.onRecord (.appendBlock b label) h
  | position label =>
    rw [Request.perform]
    cases hfound : b.positionAtEnd label with
    | ok b' => exact Step.onRecord (.positionAtEnd hfound) h
    | error e => exact h
  | alloca => exact h.taken.pushEntry _
  | allocaWith => exact (h.taken.pushEntry _).pushEntry _
  | load | gep | binary | fneg | fcmp | icmp | call => exact h.taken.push _
  | store | callVoid | br | condBr | ret => exact h.push _
  | cast op v target => exact h.cast op v target

/-- Operations add what they are to add, each in turn. -/
theorem Books.performAll (h : Books n hoisted emitted b) (hb : b.OnRecord)
    (requests : List Request) :
    Books n (hoisted ++ b.hoistedBy requests) (emitted ++ b.emittedBy requests)
      (b.performAll requests) ∧ (b.performAll requests).OnRecord := by
  induction requests generalizing b hoisted emitted with
  | nil =>
    rw [hoistedBy, emittedBy, append_nil, append_nil]
    exact ⟨h, hb⟩
  | cons r rest ih =>
    rw [hoistedBy, emittedBy, ← append_assoc, ← append_assoc]
    exact ih (h.perform hb r) (hb.perform r)

theorem books_skeleton (name : String) (ret : Ty) (params : List Ty) :
    Books params.length [] [] (ofFunc (.skeleton name ret params)) where
  head := rfl
  blocks := by
    intro k block hk
    have hblock : block ∈ [{ label := "entry" }] := mem_of_getElem? hk
    rw [mem_singleton.mp hblock]
    simp [sentTo]
  placed := nofun
  registers := by simp [ofFunc, Func.skeleton, Func.instrs, Ir.registers]

end

/-- For every function that starts out empty and every sequence of operations: the registers that
instructions define are those from the number of parameters up to the next free one, each once. The
first instructions of the entry block are the stack slots with the values they start with, in the
order of the requests. Apart from these, each block holds what was sent to it, in order, and nothing
was sent elsewhere. Every conversion in the table stands in the code. -/
theorem bookkeeping (name : String) (ret : Ty) (params : List Ty) (requests : List Request) :
    let start := ofFunc (.skeleton name ret params)
    let b := start.performAll requests
    (params.length ≤ b.nextReg ∧
      (registers b.func.instrs).Perm (List.range' params.length (b.nextReg - params.length))) ∧
    (b.entryInsert = (start.hoistedBy requests).length ∧
      b.func.blocks[0]?.map (·.instrs.take b.entryInsert) = some (start.hoistedBy requests)) ∧
    (∀ k block, b.func.blocks[k]? = some block →
      block.instrs.drop (if k = 0 then b.entryInsert else 0) =
        sentTo k (start.emittedBy requests)) ∧
    (∀ p ∈ start.emittedBy requests, p.1 < b.func.blocks.length) ∧
    ∀ r op v, (r, op, v) ∈ b.casts → ∃ target, .cast r op v target ∈ b.func.instrs := by
  intro start b
  obtain ⟨hbooks, hrecord⟩ : Books params.length (start.hoistedBy requests)
      (start.emittedBy requests) b ∧ b.OnRecord :=
    (books_skeleton name ret params).performAll ⟨Nat.zero_lt_one, nofun⟩ requests
  have hentry := List.getElem?_eq_getElem (Nat.zero_lt_of_lt hrecord.current)
  refine ⟨hbooks.registers, ⟨hbooks.head, ?_⟩, fun k block hk => ?_, hbooks.placed, hrecord.casts⟩
  · rw [hentry, Option.map_some, hbooks.blocks 0 _ hentry, hbooks.head]
    simp
  · rw [hbooks.blocks k block hk, hbooks.head]
    split <;> simp

end Builder

end ScriptCompiler.Ir
