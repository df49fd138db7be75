import Mathlib.Logic.Relation
import ScriptCompiler.Proofs.Access.Code

/-!
# What conversions mean

The builder leaves a conversion out where it knows the result. What must not change by this is what
the result stands for when the code runs, and this module says what that is: the bits of an integer, a
number, or the bits of an address, on a machine whose addresses have `p` bits (`Content`).
`CastOp.Gives` is the meaning of a conversion, and a valuation agrees with code when every register
that a conversion in it defines holds what the conversion gives (`Valuation.Agrees`). What other
instructions compute is left open.

The builder knows a conversion by its entry in a table. Whatever operations built a function, the
conversion of every entry stands in the code (`Builder.Reached.onRecord`).
-/

namespace ScriptCompiler

/-- The integer part of a finite number. -/
def Double.integerPart (d : Double) : Int :=
  let magnitude : Int := d.significand * pow2 d.scale.toNat / pow2 (-d.scale).toNat
  if d.isNegative then -magnitude else magnitude

namespace Ir

/-- What a register holds on a machine whose addresses have `p` bits. -/
inductive Content (p : Nat) where
  | int (width : Nat) (bits : BitVec width)
  | double (value : Double)
  | address (bits : BitVec p)

/-- The type of what a register holds. -/
def Content.ty {p : Nat} : Content p → Ty
  | .int width _ => .int width
  | .double _ => .double
  | .address _ => .ptr

/-- What a conversion may give. A number whose integer part does not fit may become any integer. An
integer that is not widened by `zext`, or not made narrower by `trunc`, becomes nothing: the back end
refuses these. -/
inductive CastOp.Gives {p : Nat} : CastOp → Content p → Ty → Content p → Prop where
  | uitofp {n : Nat} (w : BitVec n) : Gives .uitofp (.int n w) .double (.double (.ofNat w.toNat))
  | sitofp {n : Nat} (w : BitVec n) : Gives .sitofp (.int n w) .double (.double (.ofInt w.toInt))
  | fptosi {n : Nat} (d : Double) (w : BitVec n)
      (fits : d.isFinite = true → (BitVec.ofInt n d.integerPart).toInt = d.integerPart →
        w = BitVec.ofInt n d.integerPart) :
      Gives .fptosi (.double d) (.int n) (.int n w)
  | sameType {x : Content p} {target : Ty} (h : x.ty = target) : Gives .bitcast x target x
  | numberOfBits (w : BitVec 64) : Gives .bitcast (.int 64 w) .double (.double ⟨⟨w⟩⟩)
  | bitsOfNumber (d : Double) : Gives .bitcast (.double d) .i64 (.int 64 d.bits.toBitVec)
  | ptrtoint (a : BitVec p) (n : Nat) :
      Gives .ptrtoint (.address a) (.int n) (.int n (a.setWidth n))
  | inttoptr {n : Nat} (w : BitVec n) :
      Gives .inttoptr (.int n w) .ptr (.address (w.setWidth p))
  | zext {n m : Nat} (w : BitVec n) (wider : n < m) :
      Gives .zext (.int n w) (.int m) (.int m (w.setWidth m))
  | trunc {n m : Nat} (w : BitVec n) (narrower : m < n) :
      Gives .trunc (.int n w) (.int m) (.int m (w.setWidth m))

/-- What the operands of a function stand for at a point of its run. -/
structure Valuation (p : Nat) where
  /-- How an integer constant is read at a width. -/
  constant : (width : Nat) → Int64 → BitVec width
  /-- Where the globals are. -/
  address : String → BitVec p
  reg : Reg → Content p

namespace Valuation

variable {p : Nat}

/-- What a value stands for, unless its operand is of another type. -/
def denotes (V : Valuation p) (v : Value) : Option (Content p) :=
  match v.op, v.ty with
  | .int c, .int n => some (.int n (V.constant n c))
  | .float d, .double => some (.double d)
  | .null, .ptr => some (.address 0)
  | .global name, .ptr => some (.address (V.address name))
  | .reg r, ty => if (V.reg r).ty = ty then some (V.reg r) else none
  | _, _ => none

/-- Every conversion of the code has an operand that stands for something, and its register holds what
it gives. -/
def Agrees (V : Valuation p) (code : List Instr) : Prop :=
  ∀ dst op v target, .cast dst op v target ∈ code →
    ∃ x, V.denotes v = some x ∧ op.Gives x target (V.reg dst)

/-- Zero, one and words are read as they are. -/
structure Plain (V : Valuation p) : Prop where
  zero : ∀ n, V.constant n 0 = 0
  one : ∀ n, V.constant n 1 = 1
  word : ∀ c, V.constant 64 c = c.toBitVec

end Valuation

namespace Builder

/-- One operation on a function under construction. -/
inductive Step : Builder → Builder → Prop where
  | appendBlock (b : Builder) (label : String) : Step b (b.appendBlock label)
  | positionAtEnd {b b' : Builder} {label : String} (h : b.positionAtEnd label = .ok b') : Step b b'
  | alloca (b : Builder) (ty : Ty) : Step b (Emit.alloca ty b).2
  | allocaWith (b : Builder) (ty : Ty) (init : Value) : Step b (Emit.allocaWith ty init b).2
  | load (b : Builder) (ty : Ty) (ptr : Value) : Step b (Emit.load ty ptr b).2
  | store (b : Builder) (value ptr : Value) : Step b (Emit.store value ptr b).2
  | gep (b : Builder) (element : Ty) (base index : Value) : Step b (Emit.gep element base index b).2
  | binary (b : Builder) (op : BinOp) (lhs rhs : Value) : Step b (Emit.binary op lhs rhs b).2
  | fneg (b : Builder) (operand : Value) : Step b (Emit.fneg operand b).2
  | fcmp (b : Builder) (pred : FloatPred) (lhs rhs : Value) : Step b (Emit.fcmp pred lhs rhs b).2
  | icmp (b : Builder) (pred : IntPred) (lhs rhs : Value) : Step b (Emit.icmp pred lhs rhs b).2
  | cast (b : Builder) (op : CastOp) (v : Value) (target : Ty) : Step b (Emit.cast op v target b).2
  | call (b : Builder) (ret : Ty) (callee : String) (args : List Value) :
      Step b (Emit.call ret callee args b).2
  | callVoid (b : Builder) (callee : String) (args : List Value) :
      Step b (Emit.callVoid callee args b).2
  | br (b : Builder) (target : String) : Step b (Emit.br target b).2
  | condBr (b : Builder) (cond : Value) (yes no : String) : Step b (Emit.condBr cond yes no b).2
  | ret (b : Builder) (value : Option Value) : Step b (Emit.ret value b).2

/-- The builder comes about by operations, from a function with a block. -/
def Reached (b : Builder) : Prop :=
  ∃ f : Func, f.blocks ≠ [] ∧ Relation.ReflTransGen Step (ofFunc f) b

/-- Instructions go to a block that exists, and every conversion in the table stands in the code. -/
structure OnRecord (b : Builder) : Prop where
  current : b.current < b.func.blocks.length
  casts : ∀ r op v, (r, op, v) ∈ b.casts → ∃ target, .cast r op v target ∈ b.func.instrs

end Builder

/-! ## Contents -/

section

variable {p : Nat} {V : Valuation p} {op : CastOp} {x y : Content p} {v : Value} {target : Ty}

theorem CastOp.Gives.ty_eq (h : op.Gives x target y) : y.ty = target := by
  cases h with
  | sameType h => exact h
  | _ => rfl

namespace Valuation

theorem ty_of_denotes (h : V.denotes v = some x) : x.ty = v.ty := by
  unfold denotes at h
  split at h
  case h_6 => simp at h
  case h_5 => split_ifs at h with hty; rwa [← Option.some.inj h]
  all_goals
    obtain rfl := Option.some.inj h
    symm
    assumption

theorem denotes_int {n : Nat} {c : Int64} : V.denotes (.int (.int n) c) = some (.int n (V.constant n c)) :=
  rfl

theorem denotes_reg {r : Reg} (h : (V.reg r).ty = target) :
    V.denotes (.reg r target) = some (V.reg r) :=
  if_pos h

theorem eq_reg_of_denotes {r : Reg} (hop : v.op = .reg r) (h : V.denotes v = some x) :
    V.reg r = x := by
  obtain ⟨ty, op⟩ := v
  obtain rfl : op = .reg r := hop
  unfold denotes at h
  dsimp only at h
  split_ifs at h
  exact Option.some.inj h

theorem eq_int_of_denotes {c : Int64} (hop : v.op = .int c) (h : V.denotes v = some x) :
    ∃ n, v = .int (.int n) c ∧ x = .int n (V.constant n c) := by
  obtain ⟨ty, op⟩ := v
  obtain rfl : op = .int c := hop
  cases ty with
  | int n => exact ⟨n, rfl, (Option.some.inj h).symm⟩
  | _ => simp [denotes] at h

theorem Agrees.mono {code code' : List Instr} (h : V.Agrees code') (hsub : code ⊆ code') :
    V.Agrees code :=
  fun dst op v target hmem => h dst op v target (hsub hmem)

end Valuation

end

/-! ## Builders -/

namespace Builder

variable {b b' : Builder}

theorem OnRecord.grow (h : b.OnRecord) (hcurrent : b'.current < b'.func.blocks.length)
    (hcode : b.func.instrs ⊆ b'.func.instrs) (hcasts : b'.casts = b.casts) : b'.OnRecord where
  current := hcurrent
  casts := by
    intro r op v hmem
    obtain ⟨target, htarget⟩ := h.casts r op v (hcasts ▸ hmem)
    exact ⟨target, hcode htarget⟩

theorem OnRecord.push (h : b.OnRecord) (i : Instr) : (b.push i).OnRecord :=
  h.grow (by simpa [Builder.push, modifyBlock] using h.current)
    (Lowering.Access.extends_push b i).code rfl

theorem OnRecord.pushEntry (h : b.OnRecord) (i : Instr) : (b.pushEntry i).OnRecord :=
  h.grow (by simpa [Builder.pushEntry, modifyBlock] using h.current)
    (Lowering.Access.extends_pushEntry b i).code rfl

theorem OnRecord.taken (h : b.OnRecord) : OnRecord { b with nextReg := b.nextReg + 1 } :=
  h.grow h.current (List.Subset.refl _) rfl

theorem OnRecord.mem_push (h : b.OnRecord) (i : Instr) : i ∈ (b.push i).func.instrs := by
  obtain ⟨old, -, hmem⟩ := Lowering.Access.mem_modify_of_lt (·.push i) h.current
  exact List.mem_flatMap.mpr ⟨_, hmem, by simp [Block.push]⟩

theorem OnRecord.convert (h : b.OnRecord) (op : CastOp) (v : Value) (target : Ty) :
    OnRecord (Builder.push { b with nextReg := b.nextReg + 1, casts := (b.nextReg, op, v) :: b.casts }
      (.cast b.nextReg op v target)) where
  current := (h.taken.push (.cast b.nextReg op v target)).current
  casts := by
    intro r op' v' hmem
    rcases List.mem_cons.mp hmem with heq | hmem
    · obtain ⟨rfl, rfl, rfl⟩ : r = b.nextReg ∧ op' = op ∧ v' = v := by simpa using heq
      exact ⟨target, h.taken.mem_push _⟩
    · exact (h.taken.push (.cast b.nextReg op v target)).casts r op' v' hmem

/-- The result of a conversion that needs no instruction. -/
def known? (b : Builder) (op : CastOp) (v : Value) (target : Ty) : Option Value :=
  if v.ty = target ∧ op = .bitcast then some v
  else (foldConstant? op v target).or (b.undone? op v target)

theorem cast_run (b : Builder) (op : CastOp) (v : Value) (target : Ty) :
    Emit.cast op v target b = (b.known? op v target).elim (.reg b.nextReg target,
      Builder.push { b with nextReg := b.nextReg + 1, casts := (b.nextReg, op, v) :: b.casts }
        (.cast b.nextReg op v target)) (·, b) := by
  unfold Emit.cast known?
  by_cases hsame : v.ty = target ∧ op = .bitcast
  · rw [if_pos hsame, if_pos hsame]
    rfl
  · rw [if_neg hsame, if_neg hsame]
    cases foldConstant? op v target with
    | some w => rfl
    | none =>
      cases hundone : b.undone? op v target with
      | some w | none =>
        simp only [bind, StateT.bind, get, getThe, MonadStateOf.get, StateT.get, pure, hundone]
        rfl

/-- A conversion gives its operand, a constant or the operand of another conversion as they are, or a
new register. -/
theorem cast_eq (b : Builder) (op : CastOp) (v : Value) (target : Ty) :
    (v.ty = target ∧ op = .bitcast ∧ Emit.cast op v target b = (v, b)) ∨
    (∃ w, foldConstant? op v target = some w ∧ Emit.cast op v target b = (w, b)) ∨
    (∃ w, b.undone? op v target = some w ∧ Emit.cast op v target b = (w, b)) ∨
    Emit.cast op v target b = (.reg b.nextReg target,
      Builder.push { b with nextReg := b.nextReg + 1, casts := (b.nextReg, op, v) :: b.casts }
        (.cast b.nextReg op v target)) := by
  rw [cast_run, known?]
  by_cases hsame : v.ty = target ∧ op = .bitcast
  · rw [if_pos hsame]
    exact .inl ⟨hsame.1, hsame.2, rfl⟩
  · rw [if_neg hsame]
    cases foldConstant? op v target with
    | some w => exact .inr (.inl ⟨w, rfl, rfl⟩)
    | none =>
      cases b.undone? op v target with
      | some w => exact .inr (.inr (.inl ⟨w, rfl, rfl⟩))
      | none => exact .inr (.inr (.inr rfl))

theorem OnRecord.cast (h : b.OnRecord) (op : CastOp) (v : Value) (target : Ty) :
    (Emit.cast op v target b).2.OnRecord := by
  rcases b.cast_eq op v target with ⟨-, -, heq⟩ | ⟨w, -, heq⟩ | ⟨w, -, heq⟩ | heq <;> rw [heq]
  · exact h
  · exact h
  · exact h
  · exact h.convert op v target

theorem subset_cast (b : Builder) (op : CastOp) (v : Value) (target : Ty) :
    b.func.instrs ⊆ (Emit.cast op v target b).2.func.instrs := by
  rcases b.cast_eq op v target with ⟨-, -, heq⟩ | ⟨w, -, heq⟩ | ⟨w, -, heq⟩ | heq <;> rw [heq]
  case inr.inr.inr => exact (Lowering.Access.extends_push _ _).code
  all_goals exact List.Subset.refl _

theorem Step.onRecord (h : Step b b') (hb : b.OnRecord) : b'.OnRecord := by
  cases h with
  | appendBlock label =>
    refine hb.grow ?_ (by simp [Builder.appendBlock, Func.instrs]) rfl
    simpa [Builder.appendBlock] using Nat.lt_succ_of_lt hb.current
  | positionAtEnd h =>
    unfold Builder.positionAtEnd at h
    split at h
    case h_1 index hindex =>
      obtain rfl := Except.ok.inj h
      exact hb.grow (List.findIdx?_eq_some_iff_getElem.mp hindex).1 (List.Subset.refl _) rfl
    case h_2 => simp at h
  | alloca ty => exact hb.taken.pushEntry _
  | allocaWith ty init => exact (hb.taken.pushEntry _).pushEntry _
  | load | gep | binary | fneg | fcmp | icmp | call => exact hb.taken.push _
  | store | callVoid | br | condBr | ret => exact hb.push _
  | cast op v target => exact hb.cast op v target

theorem Reached.onRecord (h : b.Reached) : b.OnRecord := by
  obtain ⟨f, hf, hsteps⟩ := h
  induction hsteps with
  | refl => exact ⟨List.length_pos_of_ne_nil hf, by simp [ofFunc]⟩
  | tail _ hstep ih => exact hstep.onRecord ih

end Builder

end Ir

end ScriptCompiler
