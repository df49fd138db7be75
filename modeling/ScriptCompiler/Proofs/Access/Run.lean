import ScriptCompiler.Catalog
import ScriptCompiler.Proofs.Machine

/-!
# Runs in unknown surroundings

A run of a function in which little is assumed of what it is linked against: linked functions leave
the frame alone and keep to their own memory. A run may reserve stack slots, read and write memory and
call functions; what it computes or is handed may be any number, any word, or the address of memory
that a linked function handed out, and what it reads where nothing was written may be anything.
Comparisons of words and addresses give what they say, and a conversion always gives the same for the
same datum (`Surroundings`). Where control goes is read off the words that are computed, so that a
statement about all such runs covers every branch.

A run keeps its *past*: what it read, what it wrote, and what it had called. Every run of a machine is
one of these (`Machine.step_next`).
-/

namespace ScriptCompiler.Ir

/-- Something that a run did: it read a datum into a register, stored one, or had a function called
for the sake of a register or of none. -/
inductive Event where
  | loaded (dst : Reg) (place : Address) (datum : Datum)
  | stored (place : Address) (datum : Datum)
  | called (dst : Option Reg) (callee : String) (args : List Datum) (result : Option Datum)
deriving DecidableEq

/-- What a run did, the latest first. -/
abbrev Past := List Event

/-- The datum is the address neither of a stack slot nor of a global. -/
def Datum.IsForeign (d : Datum) : Prop :=
  (∀ r, d ≠ .address (.slot r)) ∧ ∀ name, d ≠ .address (.global name)

/-- The instruction computes a datum from its operands alone. -/
def Instr.isComputation : Instr → Bool
  | .gep .. | .binary .. | .fneg .. | .fcmp .. | .icmp .. | .cast .. => true
  | _ => false

/-- What runs depend on besides the code: which globals are those of other objects, and what
conversions give on the target. -/
structure Surroundings where
  elsewhere : String → Prop
  convert : CastOp → Datum → Datum
  foreign : ∀ op d, (convert op d).IsForeign
  /-- Conversions between numbers and words are the same on all targets. -/
  agrees : ∀ op d d', op.apply d = some d' → convert op d = d'

namespace Frame

/-- The frame with one more thing in its past. -/
def note (φ : Frame Past) (e : Event) : Frame Past := { φ with world := e :: φ.world }

/-- Memory that a linked function may leave behind: it changed what linked functions handed out, and
the globals of other objects. -/
def Spares (φ : Frame Past) (S : Surroundings) (memory : Address → Option Datum) : Prop :=
  ∀ a, memory a ≠ φ.memory a → (∃ index, a = .heap index) ∨ ∃ name, a = .global name ∧ S.elsewhere name

/-- A datum that an instruction may compute. Only comparisons of words and addresses, and conversions,
give something that is known. -/
def Computes (φ : Frame Past) (S : Surroundings) (d : Datum) : Instr → Prop
  | .icmp _ pred lhs rhs =>
    ∃ x y, φ.eval lhs = some x ∧ φ.eval rhs = some y ∧ d = .truth (pred.holds x y)
  | .cast _ op value _ => ∃ x, φ.eval value = some x ∧ d = S.convert op x
  | _ => d.IsForeign

end Frame

/-- Executing an instruction may lead from one frame to another. -/
inductive Does (S : Surroundings) (φ : Frame Past) : Instr → Frame Past → Prop where
  | alloca (dst : Reg) (ty : Ty) :
      Does S φ (.alloca dst ty) ((φ.set dst (.address (.slot dst))).write (.slot dst) none)
  | load {ptr : Value} {a : Address} {d : Datum} (dst : Reg) (ty : Ty) (place : φ.place ptr = some a)
      (content : φ.memory a = some d) :
      Does S φ (.load dst ty ptr) ((φ.set dst d).note (.loaded dst a d))
  /-- Memory to which nothing was written may hold anything. -/
  | loadAny {ptr : Value} {a : Address} (dst : Reg) (ty : Ty) (place : φ.place ptr = some a)
      (empty : φ.memory a = none) (d : Datum) :
      Does S φ (.load dst ty ptr) ((φ.set dst d).note (.loaded dst a d))
  | store {value ptr : Value} {a : Address} {d : Datum} (datum : φ.eval value = some d)
      (place : φ.place ptr = some a) :
      Does S φ (.store value ptr) ((φ.write a (some d)).note (.stored a d))
  | compute {i : Instr} {dst : Reg} {d : Datum} (computation : i.isComputation = true)
      (defines : i.dst? = some dst) (computes : φ.Computes S d i) : Does S φ i (φ.set dst d)
  | callVoid {args : List Value} {xs : List Datum} {memory : Address → Option Datum} (ret : Ty)
      (callee : String) (data : args.mapM φ.eval = some xs) (spares : φ.Spares S memory) :
      Does S φ (.call none ret callee args)
        (Frame.note { φ with memory } (.called none callee xs none))
  /-- A new boxed record is in memory that is handed out with it. -/
  | call {args : List Value} {xs : List Datum} {d : Datum} {memory : Address → Option Datum}
      (dst : Reg) (ret : Ty) (callee : String) (data : args.mapM φ.eval = some xs)
      (spares : φ.Spares S memory) (foreign : d.IsForeign)
      (record : callee = Catalog.boxCreate → ∃ index, d = .address (.heap index)) :
      Does S φ (.call (some dst) ret callee args)
        ((Frame.set { φ with memory } dst d).note (.called (some dst) callee xs (some d)))

/-- A point in a run: the label of the current block, the instructions of it that are still to be
executed, and the frame. -/
structure Point where
  label : String
  code : List Instr
  frame : Frame Past

/-- One point of a run may come right after another. -/
inductive Next (S : Surroundings) (f : Func) : Point → Point → Prop where
  | exec {φ φ' : Frame Past} {i : Instr} (label : String) (rest : List Instr) (h : Does S φ i φ') :
      Next S f ⟨label, i :: rest, φ⟩ ⟨label, rest, φ'⟩
  | br {label target : String} {b : Block} (φ : Frame Past) (rest : List Instr)
      (h : f.block? target = some b) : Next S f ⟨label, .br target :: rest, φ⟩ ⟨target, b.instrs, φ⟩
  | condBr {label : String} {cond : Value} {n : Int64} {yes no : String} {b : Block} (φ : Frame Past)
      (rest : List Instr) (word : φ.word cond = some n)
      (h : f.block? (if n ≠ 0 then yes else no) = some b) :
      Next S f ⟨label, .condBr cond yes no :: rest, φ⟩ ⟨if n ≠ 0 then yes else no, b.instrs, φ⟩

/-- A frame in which a function may begin: only its parameters are in registers, and nothing is in
its stack slots. -/
structure Frame.Begins (f : Func) (φ : Frame Past) : Prop where
  params : ∀ r, r ∉ f.paramRegs → φ.regs r = none
  foreign : ∀ r d, φ.regs r = some d → d.IsForeign
  slots : ∀ r, φ.memory (.slot r) = none
  past : φ.world = []

/-- The point where a function begins. -/
def Func.start (f : Func) (φ : Frame Past) : Point :=
  match f.blocks with
  | [] => ⟨"", [], φ⟩
  | first :: _ => ⟨first.label, first.instrs, φ⟩

/-- A point that a run of a function may come to. -/
def Arises (S : Surroundings) (f : Func) (φ : Frame Past) : Point → Prop :=
  Relation.ReflTransGen (Next S f) (f.start φ)

/-! ## Laws -/

@[simp] theorem Func.frame_start (f : Func) (φ : Frame Past) : (f.start φ).frame = φ := by
  unfold Func.start
  split <;> rfl

namespace Datum

theorem isForeign_number (x : Double) : (number x).IsForeign := by simp [IsForeign]

theorem isForeign_word (n : Int64) : (word n).IsForeign := by simp [IsForeign]

theorem isForeign_heap (index : Nat) : (address (.heap index)).IsForeign := by simp [IsForeign]

end Datum

section

variable {S : Surroundings} {f : Func} {φ φ' : Frame Past} {i : Instr}

theorem Frame.Computes.isForeign {d : Datum} (h : φ.Computes S d i) : d.IsForeign := by
  cases i with
  | icmp dst pred lhs rhs =>
    obtain ⟨x, y, -, -, rfl⟩ := h
    exact Datum.isForeign_word _
  | cast dst op value target =>
    obtain ⟨x, -, rfl⟩ := h
    exact S.foreign op x
  | _ => exact h

theorem Does.past (h : Does S φ i φ') : φ.world <:+ φ'.world := by
  cases h with
  | alloca | compute => exact List.suffix_refl _
  | load | loadAny | store | callVoid | call => exact List.suffix_cons _ _

theorem Does.regs (h : Does S φ i φ') {r : Reg} (hr : i.dst? ≠ some r) :
    φ'.regs r = φ.regs r := by
  cases h with
  | alloca dst ty => exact Frame.regs_set_of_ne fun heq => hr (congrArg some heq.symm)
  | load dst ty | loadAny dst ty =>
    exact Frame.regs_set_of_ne fun heq => hr (congrArg some heq.symm)
  | store | callVoid => rfl
  | compute _ defines => exact Frame.regs_set_of_ne fun heq => hr (heq ▸ defines)
  | call dst => exact Frame.regs_set_of_ne fun heq => hr (congrArg some heq.symm)

/-- Instructions that have been executed stand in front of those that are still to be. -/
theorem Arises.inside {c : Point} (h : Arises S f φ c) :
    c.code = [] ∨ ∃ b ∈ f.blocks, b.label = c.label ∧ ∃ before, b.instrs = before ++ c.code := by
  have hblock : ∀ {target b}, f.block? target = some b → ∃ b' ∈ f.blocks, b'.label = target ∧
      ∃ before : List Instr, b'.instrs = before ++ b.instrs := fun h =>
    ⟨_, List.mem_of_find?_eq_some h, by simpa using List.find?_some h, [], rfl⟩
  induction h with
  | refl =>
    unfold Func.start
    split
    · exact .inl rfl
    · rename_i first rest hblocks
      exact .inr ⟨first, by simp [hblocks], rfl, [], rfl⟩
  | tail _ hstep ih =>
    cases hstep with
    | exec label rest =>
      obtain ⟨b, hb, hlabel, before, heq⟩ := ih.resolve_left (by simp)
      exact .inr ⟨b, hb, hlabel, before ++ [_], by simpa using heq⟩
    | br _ _ h => exact .inr (hblock h)
    | condBr _ _ _ h => exact .inr (hblock h)

theorem Arises.mem {label : String} {rest : List Instr} {φ₀ : Frame Past}
    (h : Arises S f φ₀ ⟨label, i :: rest, φ⟩) : i ∈ f.instrs := by
  obtain ⟨b, hb, -, before, heq⟩ := h.inside.resolve_left (by simp)
  refine List.mem_flatMap.mpr ⟨b, hb, ?_⟩
  rw [heq]
  simp

end

/-! ## Machines -/

namespace Machine

variable {σ : Type}

/-- The linked functions of a machine hand out no address of the frame or of a global, and a new
boxed record is in memory that they hand out. -/
def HandsOut (M : Machine σ) : Prop :=
  ∀ callee xs w result w', M.call callee xs w = some (result, w') →
    (∀ d, result = some d → d.IsForeign) ∧
      (callee = Catalog.boxCreate → ∀ d, result = some d → ∃ index, d = .address (.heap index))

/-- Surroundings without other objects, where the conversion of an address gives nothing of
interest. -/
def alone : Surroundings where
  elsewhere _ := False
  convert op d := (op.apply d).getD (.word 0)
  foreign op d := by
    cases h : op.apply d with
    | none => exact Datum.isForeign_word 0
    | some d' =>
      unfold CastOp.apply at h
      split at h <;> simp only [Option.some.injEq, reduceCtorEq] at h <;>
        simp [← h, Datum.IsForeign]
  agrees op d d' h := by rw [h]; rfl

/-- The frame with a past in place of what the function is linked against. -/
def withPast (φ : Frame σ) (past : Past) : Frame Past := ⟨φ.regs, φ.memory, past⟩

/-- What executing an instruction adds to the past. -/
def events (M : Machine σ) (φ : Frame σ) : Instr → Past
  | .load dst _ ptr => ((φ.place ptr).bind fun a => (φ.memory a).map (.loaded dst a)).toList
  | .store value ptr => ((φ.eval value).bind fun d => (φ.place ptr).map (.stored · d)).toList
  | .call dst _ callee args =>
    ((args.mapM φ.eval).bind fun xs => (M.call callee xs φ.world).map fun p =>
      .called dst callee xs (dst.bind fun _ => p.1)).toList
  | _ => []

/-- The label of the block after the next instruction. -/
def target (c : Config σ) (label : String) : String :=
  match c.code with
  | .br target :: _ => target
  | .condBr cond yes no :: _ => if (c.frame.word cond).all (· ≠ 0) then yes else no
  | _ => label

/-- A point of a run of a machine with the label of its block and its past. -/
structure Traced (σ : Type) where
  label : String
  config : Config σ
  past : Past

/-- The point in unknown surroundings. -/
def Traced.point (t : Traced σ) : Point := ⟨t.label, t.config.code, withPast t.config.frame t.past⟩

/-- The next point of a run, with its past. -/
def trace (M : Machine σ) (f : Func) (t : Traced σ) : Option (Traced σ) :=
  (M.step f t.config).map fun c =>
    ⟨target t.config t.label, c,
      (t.config.code.head?.elim [] (M.events t.config.frame)) ++ t.past⟩

/-- The point that a machine comes to after so many steps, with its past. -/
def traceAll (M : Machine σ) (f : Func) : Nat → Traced σ → Option (Traced σ)
  | 0, t => some t
  | n + 1, t => (M.trace f t).bind (M.traceAll f n)

/-- The beginning of a function. -/
def begin (f : Func) (φ : Frame σ) : Traced σ :=
  match f.blocks with
  | [] => ⟨"", ⟨[], φ⟩, []⟩
  | first :: _ => ⟨first.label, ⟨first.instrs, φ⟩, []⟩

section

variable {M : Machine σ} {f : Func}

theorem spares_memory (φ : Frame Past) (S : Surroundings) : φ.Spares S φ.memory :=
  fun _ h => absurd rfl h

theorem isForeign_binary {A : Arithmetic} {op : BinOp} {x y d : Datum}
    (h : A.binary op x y = some d) : d.IsForeign := by
  unfold Arithmetic.binary at h
  split at h <;> simp only [Option.some.injEq, reduceCtorEq] at h <;> simp [← h, Datum.IsForeign]

/-- What a machine executes may be done in unknown surroundings. -/
theorem does_of_exec (hM : M.HandsOut) (S : Surroundings) {φ φ' : Frame σ} {i : Instr}
    (h : M.exec φ i = some φ') (past : Past) :
    Does S (withPast φ past) i (withPast φ' (M.events φ i ++ past)) := by
  cases i with
  | alloca dst ty =>
    obtain rfl := Option.some.inj h
    exact .alloca dst ty
  | store value ptr =>
    simp only [exec, Option.bind_eq_bind, Option.bind_eq_some_iff] at h
    obtain ⟨d, hd, a, ha, h⟩ := h
    obtain rfl := Option.some.inj h
    have hevents : M.events φ (.store value ptr) = [.stored a d] := by simp [events, hd, ha]
    rw [hevents]
    exact @Does.store S (withPast φ past) _ _ _ _ hd ha
  | call dst ret callee args =>
    simp only [exec, Option.bind_eq_bind, Option.bind_eq_some_iff] at h
    obtain ⟨xs, hxs, ⟨result, world⟩, hcall, h⟩ := h
    obtain ⟨hforeign, hrecord⟩ := hM callee xs _ _ _ hcall
    have hspares := spares_memory (withPast φ past) S
    have hevents : M.events φ (.call dst ret callee args) =
        [.called dst callee xs (dst.bind fun _ => result)] := by simp [events, hxs, hcall]
    rw [hevents]
    cases dst with
    | none =>
      obtain rfl := Option.some.inj h
      exact @Does.callVoid S (withPast φ past) _ _ _ ret callee hxs hspares
    | some dst =>
      cases result with
      | none => simp [afterCall] at h
      | some d =>
        obtain rfl := Option.some.inj h
        exact @Does.call S (withPast φ past) _ _ _ _ dst ret callee hxs hspares
          (hforeign d rfl) fun hc => hrecord hc d rfl
  | load dst ty ptr =>
    obtain ⟨d, hd, rfl⟩ := Option.map_eq_some_iff.mp h
    simp only [compute, Option.bind_eq_bind, Option.bind_eq_some_iff] at hd
    obtain ⟨a, ha, hd⟩ := hd
    have hevents : M.events φ (.load dst ty ptr) = [.loaded dst a d] := by simp [events, ha, hd]
    rw [hevents]
    exact @Does.load S (withPast φ past) _ _ _ dst ty ha hd
  | binary dst op lhs rhs =>
    obtain ⟨d, hd, rfl⟩ := Option.map_eq_some_iff.mp h
    simp only [compute, Option.bind_eq_bind, Option.bind_eq_some_iff] at hd
    obtain ⟨x, -, y, -, hd⟩ := hd
    exact @Does.compute S (withPast φ past) _ _ _ rfl rfl (isForeign_binary hd)
  | fneg dst operand =>
    obtain ⟨d, hd, rfl⟩ := Option.map_eq_some_iff.mp h
    simp only [compute, Option.bind_eq_bind, Option.bind_eq_some_iff] at hd
    obtain ⟨x, -, hd⟩ := hd
    obtain rfl := Option.some.inj hd
    exact @Does.compute S (withPast φ past) _ _ _ rfl rfl (Datum.isForeign_number _)
  | fcmp dst pred lhs rhs =>
    obtain ⟨d, hd, rfl⟩ := Option.map_eq_some_iff.mp h
    simp only [compute, Option.bind_eq_bind, Option.bind_eq_some_iff] at hd
    obtain ⟨x, -, y, -, hd⟩ := hd
    obtain rfl := Option.some.inj hd
    exact @Does.compute S (withPast φ past) _ _ _ rfl rfl (Datum.isForeign_word _)
  | icmp dst pred lhs rhs =>
    obtain ⟨d, hd, rfl⟩ := Option.map_eq_some_iff.mp h
    simp only [compute, Option.bind_eq_bind, Option.bind_eq_some_iff] at hd
    obtain ⟨x, hx, y, hy, hd⟩ := hd
    obtain rfl := Option.some.inj hd
    exact @Does.compute S (withPast φ past) _ _ _ rfl rfl ⟨x, y, hx, hy, rfl⟩
  | cast dst op value target =>
    obtain ⟨d, hd, rfl⟩ := Option.map_eq_some_iff.mp h
    simp only [compute, Option.bind_eq_bind, Option.bind_eq_some_iff] at hd
    obtain ⟨x, hx, hd⟩ := hd
    exact @Does.compute S (withPast φ past) _ _ _ rfl rfl ⟨x, hx, (S.agrees op x d hd).symm⟩
  | gep | br | condBr | ret | unreachable => simp [exec] at h

theorem step_next (hM : M.HandsOut) (S : Surroundings) {t t' : Traced σ}
    (h : M.trace f t = some t') : Next S f t.point t'.point := by
  obtain ⟨c, hstep, rfl⟩ := Option.map_eq_some_iff.mp h
  obtain ⟨label, ⟨code, φ⟩, past⟩ := t
  cases code with
  | nil => simp [step] at hstep
  | cons i rest =>
    cases i with
    | br target =>
      simp only [step, Option.bind_eq_bind, Option.bind_eq_some_iff] at hstep
      obtain ⟨b, hb, hstep⟩ := hstep
      obtain rfl := Option.some.inj hstep
      exact .br _ rest hb
    | condBr cond yes no =>
      simp only [step, Option.bind_eq_bind, Option.bind_eq_some_iff] at hstep
      obtain ⟨n, hn, b, hb, hstep⟩ := hstep
      obtain rfl := Option.some.inj hstep
      have htarget : Machine.target (⟨.condBr cond yes no :: rest, φ⟩ : Config σ) label =
          if n ≠ 0 then yes else no := by
        simp [Machine.target, hn]
      have hnext := @Next.condBr S f label cond n yes no b (withPast φ past) rest hn hb
      unfold Traced.point
      rw [htarget]
      exact hnext
    | _ =>
      simp only [step, Option.bind_eq_bind, Option.bind_eq_some_iff] at hstep
      obtain ⟨φ', hφ', hstep⟩ := hstep
      obtain rfl := Option.some.inj hstep
      exact .exec label rest (does_of_exec hM S hφ' past)

theorem arises_traceAll (hM : M.HandsOut) (S : Surroundings) {φ : Frame σ} {n : Nat}
    {t : Traced σ} (h : M.traceAll f n (begin f φ) = some t) :
    Arises S f (withPast φ []) t.point := by
  have hstart : (begin f φ).point = f.start (withPast φ []) := by
    unfold begin Func.start
    split <;> rfl
  have hrun : ∀ n t₀, Arises S f (withPast φ []) t₀.point → M.traceAll f n t₀ = some t →
      Arises S f (withPast φ []) t.point := by
    intro n
    induction n with
    | zero =>
      intro t₀ harises h
      obtain rfl : t₀ = t := Option.some.inj h
      exact harises
    | succ n ih =>
      intro t₀ harises h
      obtain ⟨t₁, hstep, hrest⟩ := Option.bind_eq_some_iff.mp h
      exact ih t₁ (harises.tail (step_next hM S hstep)) hrest
  exact hrun n _ (hstart ▸ .refl) h

end

end Machine

end ScriptCompiler.Ir
