import Mathlib.Logic.Relation
import ScriptCompiler.Ir.Assembly

/-!
# Running a function

What it means to run a function of an assembly. A machine executes the instructions of a block in
turn and follows jumps by label. Registers and memory hold *data*: numbers, words and addresses.
Arithmetic on numbers, and the functions that generated code links against, are parameters of the
machine, so that what is proved of it holds of every implementation of them; comparisons of numbers
are those of IEEE 754.

A machine is stuck where the back end promises nothing: at a register that is not defined, at memory
that was never written, at a null address, at a jump to no block. So that a function returns, by
`Machine.run`, says that none of this happens on the way.
-/

namespace ScriptCompiler

namespace Double

/-- The place of a number in the order of numbers. The two zeros share theirs; that of a NaN means
nothing. -/
def rank (d : Double) : Int :=
  let magnitude : Int := d.exponentField * pow2 52 + d.fraction
  if d.isNegative then -magnitude else magnitude

/-- Neither is a NaN. -/
def areOrdered (x y : Double) : Bool := !x.isNaN && !y.isNaN

/-- The numbers are equal; false for a NaN. -/
def equals (x y : Double) : Bool := areOrdered x y && x.rank == y.rank

/-- The numbers are not equal; false for a NaN. -/
def differs (x y : Double) : Bool := areOrdered x y && x.rank != y.rank

/-- The first number is less than the second; false for a NaN. -/
def less (x y : Double) : Bool := areOrdered x y && x.rank < y.rank

/-- The first number is at most the second; false for a NaN. -/
def atMost (x y : Double) : Bool := areOrdered x y && x.rank ≤ y.rank

end Double

namespace Ir

/-- A place in memory. -/
inductive Address where
  | null
  /-- The stack slot that a register was given. -/
  | slot (r : Reg)
  | global (name : String)
  /-- Memory that a linked function handed out. -/
  | heap (index : Nat)
deriving DecidableEq

/-- What a register or a place in memory holds. A truth value is the word 0 or 1. -/
inductive Datum where
  | number (value : Double)
  | word (value : Int64)
  | address (place : Address)
deriving DecidableEq

namespace Datum

/-- A truth value. -/
def truth (b : Bool) : Datum := .word (if b then 1 else 0)

/-- The number, if it is one. -/
def number? : Datum → Option Double
  | .number x => some x
  | _ => none

/-- The word, if it is one. -/
def word? : Datum → Option Int64
  | .word n => some n
  | _ => none

/-- The place in memory, if it is the address of one. -/
def place? : Datum → Option Address
  | .address .null => none
  | .address a => some a
  | _ => none

end Datum

/-- The state of a running function, with the state `σ` of all that it is linked against. -/
structure Frame (σ : Type) where
  regs : Reg → Option Datum
  memory : Address → Option Datum
  world : σ

namespace Frame

variable {σ : Type}

/-- The frame with a register defined. -/
def set (φ : Frame σ) (r : Reg) (d : Datum) : Frame σ :=
  { φ with regs := fun r' => if r' = r then some d else φ.regs r' }

/-- The frame with a place in memory changed. -/
def write (φ : Frame σ) (a : Address) (d : Option Datum) : Frame σ :=
  { φ with memory := fun a' => if a' = a then d else φ.memory a' }

/-- What a value stands for. -/
def eval (φ : Frame σ) (v : Value) : Option Datum :=
  match v.op with
  | .reg r => φ.regs r
  | .int n => some (.word n)
  | .float x => some (.number x)
  | .null => some (.address .null)
  | .global name => some (.address (.global name))

/-- The number that a value stands for. -/
def number (φ : Frame σ) (v : Value) : Option Double := (φ.eval v).bind Datum.number?

/-- The word that a value stands for. -/
def word (φ : Frame σ) (v : Value) : Option Int64 := (φ.eval v).bind Datum.word?

/-- The place in memory that a value stands for. -/
def place (φ : Frame σ) (v : Value) : Option Address := (φ.eval v).bind Datum.place?

end Frame

/-- Arithmetic on numbers. -/
structure Arithmetic where
  add : Double → Double → Double
  sub : Double → Double → Double
  mul : Double → Double → Double
  div : Double → Double → Double
  rem : Double → Double → Double
  neg : Double → Double

/-- What generated code runs on. -/
structure Machine (σ : Type) where
  arithmetic : Arithmetic
  /-- A call of a linked function, by its symbol: its result, if it has one, and the state after. -/
  call : String → List Datum → σ → Option (Option Datum × σ)

/-- A comparison of numbers. -/
def FloatPred.holds : FloatPred → Double → Double → Bool
  | .oeq, x, y => x.equals y
  | .one, x, y => x.differs y
  | .olt, x, y => x.less y
  | .ogt, x, y => y.less x
  | .ole, x, y => x.atMost y
  | .oge, x, y => y.atMost x

/-- A comparison of words or of addresses. -/
def IntPred.holds : IntPred → Datum → Datum → Bool
  | .eq, x, y => x == y
  | .ne, x, y => x != y

/-- An operation on two data. -/
def Arithmetic.binary (A : Arithmetic) : BinOp → Datum → Datum → Option Datum
  | .fadd, .number x, .number y => some (.number (A.add x y))
  | .fsub, .number x, .number y => some (.number (A.sub x y))
  | .fmul, .number x, .number y => some (.number (A.mul x y))
  | .fdiv, .number x, .number y => some (.number (A.div x y))
  | .frem, .number x, .number y => some (.number (A.rem x y))
  | .add, .word m, .word n => some (.word (m + n))
  | .mul, .word m, .word n => some (.word (m * n))
  | .and, .word m, .word n => some (.word (m &&& n))
  | .or, .word m, .word n => some (.word (m ||| n))
  | .xor, .word m, .word n => some (.word (m ^^^ n))
  | _, _, _ => none

/-- A conversion between numbers and words. One of an address has no meaning that all targets
share. -/
def CastOp.apply : CastOp → Datum → Option Datum
  | .uitofp, .word n => some (.number (.ofNat n.toUInt64.toNat))
  | .sitofp, .word n => some (.number (.ofInt n.toInt))
  | .bitcast, .number x => some (.word x.bits.toInt64)
  | .bitcast, .word n => some (.number ⟨n.toUInt64⟩)
  | .zext, .word n => some (.word n)
  | _, _ => none

/-- A point in a run: the instructions of the current block that are still to be executed, and the
frame. -/
structure Config (σ : Type) where
  code : List Instr
  frame : Frame σ

namespace Machine

variable {σ : Type} (M : Machine σ)

/-- The frame after a linked function returned. -/
def afterCall (φ : Frame σ) (dst : Option Reg) : Option Datum × σ → Option (Frame σ)
  | (result, world) =>
    match dst, result with
    | none, _ => some { φ with world }
    | some r, some d => some (Frame.set { φ with world } r d)
    | some _, none => none

/-- What an instruction that only computes a datum gives. -/
def compute (φ : Frame σ) : Instr → Option Datum
  | .load _ _ ptr => do
    let a ← φ.place ptr
    φ.memory a
  | .binary _ op lhs rhs => do
    let x ← φ.eval lhs
    let y ← φ.eval rhs
    M.arithmetic.binary op x y
  | .fneg _ operand => do
    let x ← φ.number operand
    return .number (M.arithmetic.neg x)
  | .fcmp _ pred lhs rhs => do
    let x ← φ.number lhs
    let y ← φ.number rhs
    return .truth (pred.holds x y)
  | .icmp _ pred lhs rhs => do
    let x ← φ.eval lhs
    let y ← φ.eval rhs
    return .truth (pred.holds x y)
  | .cast _ op value _ => do
    let x ← φ.eval value
    op.apply x
  | _ => none

/-- The frame after an instruction that does not end a block. -/
def exec (φ : Frame σ) (i : Instr) : Option (Frame σ) :=
  match i with
  | .alloca dst _ => some ((φ.set dst (.address (.slot dst))).write (.slot dst) none)
  | .store value ptr => do
    let d ← φ.eval value
    let a ← φ.place ptr
    return φ.write a (some d)
  | .call dst _ callee args => do
    let xs ← args.mapM φ.eval
    let result ← M.call callee xs φ.world
    afterCall φ dst result
  | .load dst .. | .binary dst .. | .fneg dst .. | .fcmp dst .. | .icmp dst .. | .cast dst .. =>
    (M.compute φ i).map (φ.set dst)
  | .gep .. | .br .. | .condBr .. | .ret .. | .unreachable => none

/-- The frame after instructions that do not end a block. -/
def execAll (φ : Frame σ) (code : List Instr) : Option (Frame σ) := code.foldlM M.exec φ

/-- The next point of a run. -/
def step (f : Func) : Config σ → Option (Config σ)
  | ⟨[], _⟩ => none
  | ⟨.br target :: _, φ⟩ => do
    let b ← f.block? target
    return ⟨b.instrs, φ⟩
  | ⟨.condBr cond yes no :: _, φ⟩ => do
    let n ← φ.word cond
    let b ← f.block? (if n ≠ 0 then yes else no)
    return ⟨b.instrs, φ⟩
  | ⟨i :: rest, φ⟩ => do
    let φ ← M.exec φ i
    return ⟨rest, φ⟩

/-- What a run of at most `fuel` steps returns, and the state it leaves behind. -/
def run (f : Func) : (fuel : Nat) → Config σ → Option (Option Datum × σ)
  | 0, _ => none
  | _ + 1, ⟨.ret none :: _, φ⟩ => some (none, φ.world)
  | _ + 1, ⟨.ret (some v) :: _, φ⟩ => do
    let d ← φ.eval v
    return (some d, φ.world)
  | fuel + 1, c => do
    let c ← M.step f c
    run f fuel c

/-- The start of a function without parameters, whatever memory holds. -/
def start (f : Func) (memory : Address → Option Datum) (world : σ) : Config σ :=
  ⟨(f.blocks.head?.map (·.instrs)).getD [], ⟨fun _ => none, memory, world⟩⟩

/-- One point of a run comes before another. -/
def Reaches (f : Func) : Config σ → Config σ → Prop :=
  Relation.ReflTransGen fun c c' => M.step f c = some c'

/-- The point of a run after so many steps. -/
def after (f : Func) : Nat → Config σ → Option (Config σ)
  | 0, c => some c
  | n + 1, c => do
    let c' ← M.step f c
    after f n c'

/-- A run comes to a point after at least `n` steps. -/
def Lasts (f : Func) (n : Nat) (c c' : Config σ) : Prop := ∃ k, n ≤ k ∧ M.after f k c = some c'

end Machine

/-! ## Laws of runs -/

namespace Frame

variable {σ : Type} {φ : Frame σ} {r r' : Reg} {d : Datum}

@[simp] theorem regs_set : (φ.set r d).regs r = some d := if_pos rfl

theorem regs_set_of_ne (h : r' ≠ r) : (φ.set r d).regs r' = φ.regs r' := if_neg h

@[simp] theorem memory_write {a : Address} {d : Option Datum} : (φ.write a d).memory a = d :=
  if_pos rfl

theorem memory_write_of_ne {a a' : Address} {d : Option Datum} (h : a' ≠ a) :
    (φ.write a d).memory a' = φ.memory a' :=
  if_neg h

theorem eval_congr {φ' : Frame σ} {v : Value} (h : ∀ r, v.reg? = some r → φ'.regs r = φ.regs r) :
    φ'.eval v = φ.eval v := by
  unfold eval
  cases hop : v.op with
  | reg r => exact h r (by simp [Value.reg?, hop])
  | _ => rfl

end Frame

namespace Machine

variable {σ : Type} {M : Machine σ} {f : Func} {φ φ' : Frame σ} {i : Instr} {r : Reg}

theorem regs_exec (h : M.exec φ i = some φ') (hr : i.dst? ≠ some r) : φ'.regs r = φ.regs r := by
  have hset : ∀ {ψ : Frame σ} {dst : Reg} {d : Datum}, some dst ≠ some r →
      (ψ.set dst d).regs r = ψ.regs r := fun hne =>
    Frame.regs_set_of_ne fun heq => hne (congrArg some heq.symm)
  cases i with
  | alloca dst ty =>
    obtain rfl := Option.some.inj h
    exact hset hr
  | call dst ret callee args =>
    simp only [exec, Option.bind_eq_bind, Option.bind_eq_some_iff] at h
    obtain ⟨xs, -, ⟨result, world⟩, -, h⟩ := h
    cases dst with
    | none =>
      obtain rfl := Option.some.inj h
      rfl
    | some dst =>
      cases result with
      | none => simp [afterCall] at h
      | some d =>
        obtain rfl := Option.some.inj h
        exact hset hr
  | store value ptr =>
    simp only [exec, Option.bind_eq_bind, Option.bind_eq_some_iff] at h
    obtain ⟨d, -, a, -, h⟩ := h
    obtain rfl := Option.some.inj h
    rfl
  | gep | br | condBr | ret | unreachable => simp [exec] at h
  | load | binary | fneg | fcmp | icmp | cast =>
    obtain ⟨d, -, rfl⟩ := Option.map_eq_some_iff.mp h
    exact hset hr

theorem execAll_append (a b : List Instr) :
    M.execAll φ (a ++ b) = (M.execAll φ a).bind fun ψ => M.execAll ψ b :=
  List.foldlM_append

theorem regs_execAll {code : List Instr} (h : M.execAll φ code = some φ')
    (hr : ∀ i ∈ code, i.dst? ≠ some r) : φ'.regs r = φ.regs r := by
  induction code generalizing φ with
  | nil =>
    obtain rfl := Option.some.inj h
    rfl
  | cons i code ih =>
    obtain ⟨ψ, hi, h⟩ := Option.bind_eq_some_iff.mp h
    rw [ih h fun j hj => hr j (List.mem_cons_of_mem _ hj), regs_exec hi (hr i List.mem_cons_self)]

theorem step_exec {rest : List Instr} (h : M.exec φ i = some φ') :
    M.step f ⟨i :: rest, φ⟩ = some ⟨rest, φ'⟩ := by
  cases i with
  | br | condBr => simp [exec] at h
  | _ => simp [step, h]

theorem reaches_execAll {code rest : List Instr} (h : M.execAll φ code = some φ') :
    M.Reaches f ⟨code ++ rest, φ⟩ ⟨rest, φ'⟩ := by
  induction code generalizing φ with
  | nil =>
    obtain rfl := Option.some.inj h
    exact .refl
  | cons i code ih =>
    obtain ⟨ψ, hi, h⟩ := Option.bind_eq_some_iff.mp h
    exact .head (step_exec hi) (ih h)

theorem reaches_br {label : String} {b : Block} {rest : List Instr} (hb : f.block? label = some b) :
    M.Reaches f ⟨.br label :: rest, φ⟩ ⟨b.instrs, φ⟩ :=
  .single (by simp [step, hb])

theorem run_of_reaches {c c' : Config σ} {fuel : Nat} {result : Option Datum × σ}
    (h : M.Reaches f c c') (hrun : M.run f fuel c' = some result) :
    ∃ more, M.run f more c = some result := by
  induction h using Relation.ReflTransGen.head_induction_on with
  | refl => exact ⟨fuel, hrun⟩
  | @head a b hstep _ ih =>
    obtain ⟨more, hmore⟩ := ih
    refine ⟨more + 1, ?_⟩
    obtain ⟨code, ψ⟩ := a
    cases code with
    | nil => simp [step] at hstep
    | cons i rest =>
      cases i with
      | ret v => simp [step, exec] at hstep
      | _ => simp only [run, hstep, Option.bind_eq_bind, Option.bind_some, hmore]

/-! ## Runs by the number of their steps -/

variable {c c' c'' : Config σ} {m n : Nat}

theorem after_add (m n : Nat) (c : Config σ) :
    M.after f (m + n) c = (M.after f m c).bind (M.after f n) := by
  induction m generalizing c with
  | zero => simp [after]
  | succ m ih =>
    rw [Nat.succ_add, after, after]
    cases M.step f c with
    | none => rfl
    | some c' => exact ih c'

/-- A point that is reached is reached after some number of steps. -/
theorem reaches_iff_after : M.Reaches f c c' ↔ ∃ n, M.after f n c = some c' := by
  constructor
  · intro h
    induction h with
    | refl => exact ⟨0, rfl⟩
    | @tail b d _ hstep ih =>
      obtain ⟨n, hn⟩ := ih
      refine ⟨n + 1, ?_⟩
      rw [after_add, hn]
      simp [after, hstep]
  · rintro ⟨n, hn⟩
    induction n generalizing c with
    | zero =>
      obtain rfl := Option.some.inj hn
      exact .refl
    | succ n ih =>
      obtain ⟨b, hstep, hrest⟩ := Option.bind_eq_some_iff.mp hn
      exact .head hstep (ih hrest)

theorem Lasts.reaches (h : M.Lasts f n c c') : M.Reaches f c c' :=
  reaches_iff_after.mpr ⟨h.choose, h.choose_spec.2⟩

theorem lasts_of_reaches (h : M.Reaches f c c') : M.Lasts f 0 c c' := by
  obtain ⟨k, hk⟩ := reaches_iff_after.mp h
  exact ⟨k, Nat.zero_le k, hk⟩

theorem lasts_of_step (h : M.step f c = some c') : M.Lasts f 1 c c' :=
  ⟨1, Nat.le_refl 1, by simp [after, h]⟩

theorem Lasts.trans (h : M.Lasts f m c c') (h' : M.Lasts f n c' c'') :
    M.Lasts f (m + n) c c'' := by
  obtain ⟨j, hj, hc⟩ := h
  obtain ⟨k, hk, hc'⟩ := h'
  exact ⟨j + k, Nat.add_le_add hj hk, by rw [after_add, hc]; exact hc'⟩

theorem Lasts.mono (h : M.Lasts f n c c') (hle : m ≤ n) : M.Lasts f m c c' := by
  obtain ⟨k, hk, hc⟩ := h
  exact ⟨k, Nat.le_trans hle hk, hc⟩

theorem reaches_of_after_le (hc : M.after f m c = some c') (hc' : M.after f n c = some c'')
    (hle : m ≤ n) : M.Reaches f c' c'' := by
  obtain ⟨k, rfl⟩ := Nat.exists_eq_add_of_le hle
  rw [after_add, hc] at hc'
  exact reaches_iff_after.mpr ⟨k, hc'⟩

theorem after_of_run {fuel : Nat} {result : Option Datum} {w : σ}
    (h : M.run f fuel c = some (result, w)) :
    ∃ k c', M.after f k c = some c' ∧ M.step f c' = none ∧ c'.frame.world = w := by
  induction fuel generalizing c with
  | zero => simp [run] at h
  | succ fuel ih =>
    obtain ⟨code, φ⟩ := c
    by_cases hret : ∃ v rest, code = .ret v :: rest
    · obtain ⟨v, rest, rfl⟩ := hret
      refine ⟨0, _, rfl, by simp [step, exec], ?_⟩
      cases v with
      | none => exact congrArg Prod.snd (Option.some.inj h)
      | some v =>
        simp only [run, Option.bind_eq_bind, Option.bind_eq_some_iff] at h
        obtain ⟨d, -, h⟩ := h
        exact congrArg Prod.snd (Option.some.inj h)
    · rw [run] at h
      · obtain ⟨c₁, hc₁, hrest⟩ := Option.bind_eq_some_iff.mp h
        obtain ⟨k, c', hk, hlast, hworld⟩ := ih hrest
        exact ⟨k + 1, c', by rw [after, hc₁]; exact hk, hlast, hworld⟩
      · exact fun rest _ heq => hret ⟨_, rest, congrArg Config.code heq⟩
      · exact fun v rest _ heq => hret ⟨_, rest, congrArg Config.code heq⟩

end Machine

end Ir

end ScriptCompiler
