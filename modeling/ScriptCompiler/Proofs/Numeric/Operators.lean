import Mathlib.Logic.Function.Basic
import ScriptCompiler.Proofs.Numeric.Source
import ScriptCompiler.Proofs.Stage.Straight

/-!
# The meaning of conversions and operators

A value is a number, a truth value or a boxed record, by its kind and type, and a record stands for
its current value (`Denotes`). What code knows of the functions that it is linked against is a
`Library`: how the values of records and the output so far are seen in the state of the machine, and
what calls do to them. The code of expressions reads memory and records and may print, but changes
neither (`Keeps`). On such values conversions and operators compute what the source says, whether an
operand is boxed or not (`straight_binary`, `straight_unary`).

Evaluations of the source are reasoned about by their last state: `Ends whole (e ρ) Q` says that the
evaluation `e` from the store `ρ` gives a result and a store as `Q` says, and fails only if not
`whole`.
-/

namespace ScriptCompiler.Numeric

open Ir Lowering

/-- The slots of the variables of a table. -/
def slotsOf (t : Table Binding) (name : String) : Option Reg :=
  (t.lookup name).bind fun b => b.slot.reg?

/-- No instruction defines the register of a slot. -/
def Avoids (T : Table Binding) (code : List Instr) : Prop :=
  ∀ i ∈ code, ∀ name r, slotsOf T name = some r → i.dst? ≠ some r

/-- The value is no register from `n` on. -/
def Below (n : Reg) (v : Value) : Prop := ∀ r, v.reg? = some r → r < n

/-- The value is a number or a truth value, and no register from `n` on. -/
structure IsScalar (n : Reg) (v : Typed) : Prop where
  kind : v.kind = .scalar
  type : v.value.ty = .double ∨ v.value.ty = .bool
  below : Below n v.value

/-- The value is a number, a truth value or a record, and no register from `n` on. -/
structure IsNumber (n : Reg) (v : Typed) : Prop where
  kind : (v.kind = .scalar ∧ (v.value.ty = .double ∨ v.value.ty = .bool)) ∨
    (v.kind = .tracked ∧ v.value.ty = .ptr)
  below : Below n v.value

/-- What code knows of the functions that it is linked against. -/
structure Library {ω : Type} (N : Numbers) (M : Machine ω) where
  /-- The numbers printed so far. -/
  printed : ω → List Double
  /-- The current value of a record. -/
  value : ω → Address → Option Double
  arithmetic : M.arithmetic = N.toArithmetic
  /-- A record is asked for its value, which changes none and prints nothing. -/
  get : ∀ {a x w}, value w a = some x →
    ∃ w', M.call Catalog.boxValue [.address a] w = some (some (.number x), w') ∧
      value w' = value w ∧ printed w' = printed w
  update : ∀ {a y w}, value w a = some y → ∀ x,
    ∃ w', M.call Catalog.boxUpdate [.address a, .number x] w = some (none, w') ∧
      value w' = Function.update (value w) a (some x) ∧ printed w' = printed w
  /-- One function prints a number, and another the value of a record. -/
  print : ∀ {symbol w}, symbol = Catalog.printDouble ∨
      (symbol = Catalog.printValue ∧ ∃ a y, value w a = some y) → ∀ x,
    ∃ w', M.call symbol [.number x] w = some (none, w') ∧ value w' = value w ∧
      printed w' = printed w ++ [x]
  /-- The mathematical library is there. -/
  maths : Prop
  /-- Its functions compute, and do nothing else. -/
  compute : maths → ∀ {symbol xs d}, (∀ out, call N symbol xs out = some (some d, out)) → ∀ w,
    ∃ w', M.call symbol xs w = some (some d, w') ∧ value w' = value w ∧ printed w' = printed w

section

variable {ω : Type} {N : Numbers} {M : Machine ω}

/-- The value stands for a number: as a number, as the truth value that the number is, or as a
record that has this value. -/
def Denotes (R : Library N M) (φ : Frame ω) (v : Typed) (x : Double) : Prop :=
  (v.kind = .scalar ∧ v.value.ty = .double ∧ φ.eval v.value = some (.number x)) ∨
    (v.kind = .scalar ∧ v.value.ty = .bool ∧
      ∃ b, φ.eval v.value = some (.truth b) ∧ x = ofTruth b) ∨
    (v.kind = .tracked ∧ v.value.ty = .ptr ∧
      ∃ a, φ.eval v.value = some (.address a) ∧ R.value φ.world a = some x)

/-- Code leads from one frame to another, prints `out`, and changes registers from `n` on only. -/
structure Keeps (R : Library N M) (n : Reg) (φ : Frame ω) (code : List Instr) (out : List Double)
    (φ' : Frame ω) : Prop where
  run : M.execAll φ code = some φ'
  regs : ∀ r < n, φ'.regs r = φ.regs r
  memory : φ'.memory = φ.memory
  value : R.value φ'.world = R.value φ.world
  printed : R.printed φ'.world = R.printed φ.world ++ out

end

/-! ## Frames -/

section

variable {ω : Type} {N : Numbers} {M : Machine ω} {R : Library N M} {φ φ' φ'' : Frame ω}
  {T : Table Binding} {code code' : List Instr} {out out' : List Double} {v : Typed} {x : Double} {n m : Reg}

theorem avoids_append : Avoids T (code ++ code') ↔ Avoids T code ∧ Avoids T code' := by
  simp [Avoids, or_imp, forall_and]

theorem Below.mono {v : Value} (h : Below n v) (hle : n ≤ m) : Below m v :=
  fun r hr => Nat.lt_of_lt_of_le (h r hr) hle

theorem below_reg (r : Reg) (ty : Ty) : Below (r + 1) (.reg r ty) := by
  intro r' hr'
  obtain rfl : r = r' := by simpa [Value.reg?, Value.reg] using hr'
  exact Nat.lt_succ_self r

theorem IsNumber.mono (h : IsNumber n v) (hle : n ≤ m) : IsNumber m v :=
  ⟨h.kind, h.below.mono hle⟩

theorem IsScalar.isNumber (h : IsScalar n v) : IsNumber n v :=
  ⟨.inl ⟨h.kind, h.type⟩, h.below⟩

theorem Below.eval {v : Value} (h : Below n v) (hregs : ∀ r < n, φ'.regs r = φ.regs r) :
    φ'.eval v = φ.eval v :=
  Frame.eval_congr fun r hr => hregs r (h r hr)

theorem Denotes.mono (h : Denotes R φ v x) (hv : Below n v.value)
    (hregs : ∀ r < n, φ'.regs r = φ.regs r) (hvalue : R.value φ'.world = R.value φ.world) :
    Denotes R φ' v x := by
  unfold Denotes
  rw [hv.eval hregs, hvalue]
  exact h

theorem Denotes.keeps (h : Denotes R φ v x) (hv : Below n v.value)
    (hk : Keeps R n φ code out φ') : Denotes R φ' v x :=
  h.mono hv hk.regs hk.value

theorem Keeps.refl (R : Library N M) (n : Reg) (φ : Frame ω) : Keeps R n φ [] [] φ :=
  ⟨rfl, fun _ _ => rfl, rfl, rfl, (List.append_nil _).symm⟩

theorem Keeps.trans (h : Keeps R n φ code out φ') (h' : Keeps R m φ' code' out' φ'')
    (hle : n ≤ m) : Keeps R n φ (code ++ code') (out ++ out') φ'' where
  run := by rw [Machine.execAll_append, h.run]; exact h'.run
  regs := fun r hr => (h'.regs r (Nat.lt_of_lt_of_le hr hle)).trans (h.regs r hr)
  memory := h'.memory.trans h.memory
  value := h'.value.trans h.value
  printed := by rw [h'.printed, h.printed, List.append_assoc]

theorem keeps_set {i : Instr} {d : Datum} (h : M.exec φ i = some (φ.set n d)) :
    Keeps R n φ [i] [] (φ.set n d) where
  run := by simp [Machine.execAll, h]
  regs := fun r hr => Frame.regs_set_of_ne (Nat.ne_of_lt hr)
  memory := rfl
  value := rfl
  printed := (List.append_nil _).symm

theorem exec_call {ret : Ty} {callee : String} {args : List Value} {xs : List Datum}
    {result : Option Datum} {w : ω} (hargs : args.mapM φ.eval = some xs)
    (hcall : M.call callee xs φ.world = some (result, w)) :
    M.exec φ (.call none ret callee args) = some { φ with world := w } := by
  simp [Machine.exec, hargs, hcall, Machine.afterCall]

theorem keeps_call {ret : Ty} {callee : String} {args : List Value} {xs : List Datum} {d : Datum}
    {w : ω} (hargs : args.mapM φ.eval = some xs)
    (hcall : M.call callee xs φ.world = some (some d, w))
    (hvalue : R.value w = R.value φ.world) (hprinted : R.printed w = R.printed φ.world) :
    Keeps R n φ [.call (some n) ret callee args] [] (Frame.set { φ with world := w } n d) where
  run := by simp [Machine.execAll, Machine.exec, hargs, hcall, Machine.afterCall]
  regs := fun r hr => Frame.regs_set_of_ne (Nat.ne_of_lt hr)
  memory := rfl
  value := hvalue
  printed := hprinted.trans (List.append_nil _).symm

end

/-! ## Evaluations -/

/-- An evaluation gives a result and a store as `Q` says, and fails only if not `whole`. -/
def Ends {α : Type} (whole : Prop) (result : Option (α × Store)) (Q : α → Store → Prop) : Prop :=
  match result with
  | some (a, ρ) => Q a ρ
  | none => ¬ whole

section

variable {α β : Type} {whole whole' : Prop} {e : Eval α} {k : α → Eval β} {ρ : Store}
  {Q Q' : α → Store → Prop} {R : β → Store → Prop}

theorem Ends.bind (h : Ends whole (e ρ) Q) (hk : ∀ a ρ', Q a ρ' → Ends whole (k a ρ') R) :
    Ends whole ((e >>= k) ρ) R := by
  show Ends whole (e ρ >>= fun p => k p.1 p.2) R
  cases he : e ρ with
  | none => simpa [he, Ends] using h
  | some p =>
    rw [he] at h
    exact hk p.1 p.2 h

theorem Ends.mono {result : Option (α × Store)} (h : Ends whole result Q) (hwhole : whole' → whole)
    (k : ∀ a ρ', Q a ρ' → Q' a ρ') : Ends whole' result Q' := by
  cases result with
  | none => exact fun h' => h (hwhole h')
  | some p => exact k p.1 p.2 h

theorem Ends.discard (h : Ends whole (e ρ) Q) :
    Ends whole (discard e ρ) fun _ ρ' => ∃ a, Q a ρ' := by
  show Ends whole (e ρ >>= fun p => some ((), p.2)) _
  cases he : e ρ with
  | none => simpa [he, Ends] using h
  | some p =>
    rw [he] at h
    exact ⟨p.1, h⟩

theorem ends_var {name : String} {Q : Double → Store → Prop}
    (hnone : ρ.vars name = none → ¬ whole) (hsome : ∀ x, ρ.vars name = some x → Q x ρ) :
    Ends whole ((do let ρ ← get; ρ.vars name : Eval Double) ρ) Q := by
  show Ends whole ((liftM (ρ.vars name) : Eval Double) ρ) Q
  cases hname : ρ.vars name with
  | none => exact hnone hname
  | some x => exact hsome x hname

end

/-! ## Conversions -/

section

variable {ω : Type} {N : Numbers} {M : Machine ω} {R : Library N M} {ctx : Context} {s : State}
  {v lhs rhs : Typed}

theorem undone_uitofp (b : Builder) (v : Value) (ty : Ty) : b.undone? .uitofp v ty = none := by
  have hinverse : ∀ op : CastOp, op.inverse? ≠ some .uitofp := by
    intro op
    cases op <;> decide
  unfold Builder.undone?
  cases v.reg? with
  | none => rfl
  | some r =>
    cases hcast : b.casts.lookup r with
    | none => simp [hcast]
    | some c => simp [hcast, hinverse c.1]

/-- The builder after a truth value is converted to a number by an instruction. -/
def widened (b : Builder) (v : Value) : Builder :=
  Builder.push { b with
    nextReg := b.nextReg + 1
    casts := (b.nextReg, .uitofp, v) :: b.casts } (.cast b.nextReg .uitofp v .double)

theorem cast_uitofp {b : Builder} {v : Value} (hfold : foldConstant? .uitofp v .double = none) :
    Emit.cast .uitofp v .double b = (.reg b.nextReg .double, widened b v) := by
  unfold Emit.cast
  simp only [reduceCtorEq, and_false, if_false, hfold]
  have hget : ∀ f : Builder → Emit Value, (get >>= f) b = f b b := fun _ => rfl
  rw [hget, undone_uitofp]
  rfl

theorem apply_uitofp (b : Bool) : CastOp.uitofp.apply (.truth b) = some (.number (ofTruth b)) := by
  cases b <;> decide +kernel

theorem eq_ofTruth {n : Int64} {b : Bool} (h : Datum.word n = .truth b) :
    (if n ≠ 0 then Double.one else .zero) = ofTruth b := by
  obtain rfl : n = if b then 1 else 0 := Datum.word.inj h
  cases b <;> decide

/-- Code leaves in `w` a datum that depends by `D` on the number that a value stands for. -/
def Leaves (R : Library N M) (n : Reg) (D : Double → Datum) (v : Typed) (code : List Instr)
    (w : Value) : Prop :=
  ∀ φ x, Denotes R φ v x → ∃ φ', Keeps R n φ code [] φ' ∧ φ'.eval w = some (D x)

/-- The step converts every number, truth value or record to a value of the given type. What the
result stands for depends on the number by `D`. -/
def Converts (R : Library N M) (ctx : Context) (conv : Typed → Lower Value) (ty : Ty)
    (D : Double → Datum) : Prop :=
  ∀ s v, IsNumber s.builder.nextReg v →
    Straight ctx s (conv v) fun code b w => w.ty = ty ∧ Below b.nextReg w ∧
      Leaves R s.builder.nextReg D v code w

theorem straight_boxValue (hkind : v.kind = .tracked) :
    Straight ctx s (liftM (toScalar v)) fun code b w => w.ty = .double ∧ Below b.nextReg w ∧
      Leaves R s.builder.nextReg .number v code w := by
  have hcall : toScalar v = Emit.call .double Catalog.boxValue [v.value] := by
    simp [toScalar, hkind]
  rw [hcall]
  refine Straight.define (fun _ => rfl) fun b hb => ⟨rfl, hb ▸ below_reg _ _, fun φ x hx => ?_⟩
  rcases hx with ⟨hscalar, -⟩ | ⟨hscalar, -⟩ | ⟨-, -, a, ha, hvalue⟩
  · simp [hkind] at hscalar
  · simp [hkind] at hscalar
  obtain ⟨w, hget, hsame, hprinted⟩ := R.get hvalue
  have hargs : [v.value].mapM φ.eval = some [.address a] := by simp [ha]
  exact ⟨_, keeps_call hargs hget hsame hprinted, Frame.regs_set⟩

theorem converts_toScalar (R : Library N M) :
    Converts R ctx (fun v => liftM (toScalar v)) .double .number := by
  intro s v hv
  beta_reduce
  rcases hv.kind with ⟨hkind, hty⟩ | ⟨hkind, -⟩
  · have hscalar : toScalar v =
        if v.value.ty = .bool then Emit.cast .uitofp v.value .double else pure v.value := by
      simp [toScalar, hkind]
    rw [hscalar]
    rcases hty with hty | hty
    · rw [if_neg (by simp [hty])]
      refine Straight.pure ⟨hty, hv.below, fun φ x hx => ⟨φ, .refl _ _ _, ?_⟩⟩
      rcases hx with ⟨-, -, hx⟩ | ⟨-, hbool, -⟩ | ⟨htracked, -⟩
      · exact hx
      · simp [hty] at hbool
      · simp [hkind] at htracked
    · rw [if_pos hty]
      have htruth : ∀ φ x, Denotes R φ v x → ∃ b, φ.eval v.value = some (.truth b) ∧
          x = ofTruth b := by
        rintro φ x (⟨-, hdouble, -⟩ | ⟨-, -, hb⟩ | ⟨htracked, -⟩)
        · simp [hty] at hdouble
        · exact hb
        · simp [hkind] at htracked
      cases hfold : foldConstant? .uitofp v.value .double with
      | some w =>
        -- Only a constant is folded, and its value is known.
        have hcast : Emit.cast .uitofp v.value .double = pure w := by simp [Emit.cast, hfold]
        rw [hcast]
        cases hop : v.value.op with
        | int n =>
          obtain rfl : Value.float (if n ≠ 0 then .one else .zero) = w := by
            unfold foldConstant? at hfold
            simpa [hop, hty] using hfold
          refine Straight.pure ⟨rfl, fun r hr => by simp [Value.reg?, Value.float] at hr, ?_⟩
          intro φ x hx
          obtain ⟨b, hb, rfl⟩ := htruth φ x hx
          refine ⟨φ, .refl _ _ _, ?_⟩
          have hword : Datum.word n = .truth b := by simpa [Frame.eval, hop] using hb
          rw [← eq_ofTruth hword]
          rfl
        | _ =>
          unfold foldConstant? at hfold
          simp [hop] at hfold
      | none =>
        intro w s' hrun
        obtain ⟨rfl, rfl⟩ : Value.reg s.builder.nextReg .double = w ∧
            { s with builder := widened s.builder v.value } = s' := by
          have hok : (Except.ok ((Emit.cast .uitofp v.value .double s.builder).1,
              { s with builder := (Emit.cast .uitofp v.value .double s.builder).2 }) :
              Except Error _) = .ok (w, s') := hrun
          rw [cast_uitofp hfold] at hok
          simpa using hok
        refine ⟨_, _, rfl, .push _ ⟨rfl, rfl, rfl⟩ (Nat.le_succ _) ?_, rfl, below_reg _ _, ?_⟩
        · intro r hr
          exact Nat.le_of_eq (Option.some.inj hr)
        · intro φ x hx
          obtain ⟨b, hb, rfl⟩ := htruth φ x hx
          refine ⟨_, keeps_set (d := .number (ofTruth b)) ?_, Frame.regs_set⟩
          simp [Machine.exec, Machine.compute, hb, apply_uitofp]
  · exact straight_boxValue hkind

theorem isTrue_ofTruth (b : Bool) : isTrue (ofTruth b) = b := by
  cases b <;> decide +kernel

theorem converts_toBoolean (R : Library N M) :
    Converts R ctx (fun v => perform (toBoolean v)) .bool (fun x => .truth (isTrue x)) := by
  intro s v hv
  refine Straight.perform fun e he => ?_
  -- A truth value is taken as it is, and all else is compared with zero.
  by_cases hbool : v.kind = .scalar ∧ v.value.ty = .bool
  · obtain ⟨hkind, hty⟩ := hbool
    obtain rfl : pure v.value = e := by simpa [toBoolean, hkind, hty] using he
    refine Straight.pure ⟨hty, hv.below, fun φ x hx => ⟨φ, .refl _ _ _, ?_⟩⟩
    rcases hx with ⟨-, hdouble, -⟩ | ⟨-, -, b, hb, rfl⟩ | ⟨htracked, -⟩
    · simp [hty] at hdouble
    · show φ.eval v.value = some (.truth (isTrue (ofTruth b)))
      rw [isTrue_ofTruth, hb]
    · simp [hkind] at htracked
  · obtain rfl : isNonzero v = e := by
      rcases hv.kind with ⟨hkind, hty | hty⟩ | ⟨hkind, hty⟩
      · simpa [toBoolean, hkind, hty] using he
      · exact absurd ⟨hkind, hty⟩ hbool
      · simpa [toBoolean, hkind, hty] using he
    refine Straight.emit_bind (converts_toScalar R s v hv) ?_
    rintro code b w hcode ⟨-, hbelow, hw⟩
    refine Straight.define (fun _ => rfl) fun b' hb' => ⟨rfl, hb' ▸ below_reg _ _, ?_⟩
    intro φ x hx
    obtain ⟨φ', hkeeps, heval⟩ := hw φ x hx
    refine ⟨_, hkeeps.trans (keeps_set (d := .truth (isTrue x)) ?_) hcode.next, Frame.regs_set⟩
    have hzero : φ'.number (.float .zero) = some .zero := rfl
    have hnumber : φ'.number w = some x := by rw [Frame.number, heval]; rfl
    simp [Machine.exec, Machine.compute, hzero, hnumber, FloatPred.holds, Numeric.isTrue]

/-! ## Operators -/

/-- The code computes `f` of what a value stands for. -/
def Computes (R : Library N M) (n : Reg) (f : Double → Double) (v : Typed) (code : List Instr)
    (w : Typed) : Prop :=
  ∀ φ x, Denotes R φ v x → ∃ φ', Keeps R n φ code [] φ' ∧ Denotes R φ' w (f x)

/-- The code computes `f` of what two values stand for. -/
def Computes₂ (R : Library N M) (n : Reg) (f : Double → Double → Double) (v v' : Typed)
    (code : List Instr) (w : Typed) : Prop :=
  ∀ φ x y, Denotes R φ v x → Denotes R φ v' y →
    ∃ φ', Keeps R n φ code [] φ' ∧ Denotes R φ' w (f x y)

/-- The instruction defines a register that stands for the number `z`. -/
def Yields (R : Library N M) (φ : Frame ω) (i : Reg → Instr) (ty : Ty) (z : Double) : Prop :=
  ∀ n, ∃ φ', Keeps R n φ [i n] [] φ' ∧ Denotes R φ' (.scalar (.reg n ty)) z

theorem yields_number {φ : Frame ω} {i : Reg → Instr} {z : Double}
    (h : ∀ n, M.exec φ (i n) = some (φ.set n (.number z))) : Yields R φ i .double z :=
  fun n => ⟨_, keeps_set (h n), .inl ⟨rfl, rfl, Frame.regs_set⟩⟩

theorem yields_truth {φ : Frame ω} {i : Reg → Instr} {z : Bool}
    (h : ∀ n, M.exec φ (i n) = some (φ.set n (.truth z))) : Yields R φ i .bool (ofTruth z) :=
  fun n => ⟨_, keeps_set (h n), .inr (.inl ⟨rfl, rfl, z, Frame.regs_set, rfl⟩)⟩

theorem yields_call {φ : Frame ω} {symbol : String} {args : List Value} {xs : List Datum} {z : Double}
    (hmaths : R.maths) (hargs : args.mapM φ.eval = some xs)
    (hcall : ∀ out, call N symbol xs out = some (some (.number z), out)) :
    Yields R φ (fun n => .call (some n) .double symbol args) .double z := by
  intro n
  obtain ⟨w, hw, hvalue, hprinted⟩ := R.compute hmaths hcall φ.world
  exact ⟨_, keeps_call hargs hw hvalue hprinted, .inl ⟨rfl, rfl, Frame.regs_set⟩⟩

theorem isScalar_reg {n : Reg} {ty : Ty} (h : ty = .double ∨ ty = .bool) :
    IsScalar (n + 1) (.scalar (.reg n ty)) :=
  ⟨rfl, h, below_reg n ty⟩

/-- An instruction on a converted operand. -/
theorem Converts.unary {conv : Typed → Lower Value} {ty ty' : Ty} {D : Double → Datum}
    {f : Double → Double} {e : Value → Emit Value} {i : Value → Reg → Instr}
    (h : Converts R ctx conv ty D) (hty : ty' = .double ∨ ty' = .bool)
    (he : ∀ v, v.ty = ty → e v = Emit.define ty' (i v)) (hdst : ∀ v n, (i v n).dst? = some n)
    (hexec : ∀ φ v x, φ.eval v = some (D x) → Yields R φ (i v) ty' (f x))
    (hv : IsNumber s.builder.nextReg v) :
    Straight ctx s (do
      let w ← conv v
      let r ← e w
      return .scalar r)
      fun code b r => IsScalar b.nextReg r ∧ Computes R s.builder.nextReg f v code r := by
  refine (h s v hv).bind ?_
  rintro code b w hcode ⟨hwty, -, hw⟩
  rw [he w hwty]
  refine Straight.map (Straight.define (hdst w) fun b' hb' => ⟨hb' ▸ isScalar_reg hty, ?_⟩)
  intro φ x hx
  obtain ⟨φ', hkeeps, heval⟩ := hw φ x hx
  obtain ⟨φ'', hlast, hz⟩ := hexec φ' w x heval b.nextReg
  exact ⟨φ'', hkeeps.trans hlast hcode.next, hz⟩

/-- An instruction on two converted operands. -/
theorem Converts.binary {conv : Typed → Lower Value} {ty ty' : Ty} {D : Double → Datum}
    {f : Double → Double → Double} {e : Value → Value → Emit Value}
    {i : Value → Value → Reg → Instr} (h : Converts R ctx conv ty D)
    (hty : ty' = .double ∨ ty' = .bool)
    (he : ∀ v w, v.ty = ty → e v w = Emit.define ty' (i v w))
    (hdst : ∀ v w n, (i v w n).dst? = some n)
    (hexec : ∀ φ v w x y, φ.eval v = some (D x) → φ.eval w = some (D y) →
      Yields R φ (i v w) ty' (f x y))
    (hl : IsNumber s.builder.nextReg lhs) (hr : IsNumber s.builder.nextReg rhs) :
    Straight ctx s (do
      let l ← conv lhs
      let r ← conv rhs
      let v ← e l r
      return .scalar v)
      fun code b v => IsScalar b.nextReg v ∧
        Computes₂ R s.builder.nextReg f lhs rhs code v := by
  refine (h s lhs hl).bind ?_
  rintro code b l hcode ⟨hlty, hlbelow, hlval⟩
  refine (h { s with builder := b } rhs (hr.mono hcode.next)).bind ?_
  rintro code' b' r hcode' ⟨-, -, hrval⟩
  rw [he l r hlty]
  refine Straight.map (Straight.define (hdst l r) fun b'' hb'' => ⟨hb'' ▸ isScalar_reg hty, ?_⟩)
  intro φ x y hx hy
  -- The second conversion leaves the first result alone, and the first the second operand.
  obtain ⟨φ₁, hkeeps₁, hl₁⟩ := hlval φ x hx
  obtain ⟨φ₂, hkeeps₂, hr₂⟩ := hrval φ₁ y (hy.keeps hr.below hkeeps₁)
  have hl₂ : φ₂.eval l = some (D x) := (hlbelow.eval hkeeps₂.regs).trans hl₁
  obtain ⟨φ₃, hlast, hz⟩ := hexec φ₂ l r x y hl₂ hr₂ b'.nextReg
  exact ⟨φ₃, hkeeps₁.trans (hkeeps₂.trans hlast hcode'.next) hcode.next, hz⟩

theorem binary?_of_arithmetic {op : String} {bin : BinOp} (h : arithmetic? op = some bin) :
    ∃ f, binary? N op = some f ∧ ∀ x y,
      N.binary bin (.number x) (.number y) = some (.number (f x y)) := by
  unfold arithmetic? at h
  split at h
  case h_1 | h_2 | h_3 | h_4 | h_5 =>
    obtain rfl := Option.some.inj h
    exact ⟨_, rfl, fun _ _ => rfl⟩
  case h_6 => simp at h

theorem binary?_of_comparison {op : String} {pred : FloatPred} (h : comparison? op = some pred) :
    binary? N op = some fun x y => ofTruth (pred.holds x y) := by
  unfold comparison? at h
  split at h
  case h_1 | h_2 | h_3 | h_4 | h_5 | h_6 =>
    obtain rfl := Option.some.inj h
    rfl
  case h_7 => simp at h

theorem binary?_of_logic {op : String} {bin : BinOp} (h : logic? op = some bin) :
    ∃ f : Bool → Bool → Bool, binary? N op = some (fun x y => ofTruth (f (isTrue x) (isTrue y))) ∧
      ∀ p q, N.binary bin (.truth p) (.truth q) = some (.truth (f p q)) := by
  unfold logic? at h
  split at h
  case h_1 =>
    obtain rfl := Option.some.inj h
    exact ⟨(· && ·), rfl, fun p q => by cases p <;> cases q <;> rfl⟩
  case h_2 =>
    obtain rfl := Option.some.inj h
    exact ⟨(· || ·), rfl, fun p q => by cases p <;> cases q <;> rfl⟩
  case h_3 => simp at h

theorem straight_binary (op : String) (hl : IsNumber s.builder.nextReg lhs)
    (hr : IsNumber s.builder.nextReg rhs) :
    Straight ctx s (binary op lhs rhs) fun code b v => IsScalar b.nextReg v ∧
      ∃ f, binary? N op = some f ∧ Computes₂ R s.builder.nextReg f lhs rhs code v := by
  have hplain : binary op lhs rhs = plainBinary op lhs rhs := by
    rcases hl.kind with ⟨hl, -⟩ | ⟨hl, -⟩ <;> rcases hr.kind with ⟨hr, -⟩ | ⟨hr, -⟩ <;>
      simp [Lowering.binary, hl, hr]
  rw [hplain]
  unfold plainBinary
  split
  case h_1 bin harith =>
    obtain ⟨f, hf, hbin⟩ := binary?_of_arithmetic (N := N) harith
    refine ((converts_toScalar R).binary (f := f) (i := fun l r n => .binary n bin l r) (.inl rfl)
      (fun l r hty => ?_) (fun _ _ _ => rfl) (fun φ l r x y hx hy => ?_) hl hr).mono
      fun code b v _ h => ⟨h.1, f, hf, h.2⟩
    · rw [Emit.binary, hty]
    · have hbin : M.arithmetic.binary bin (.number x) (.number y) = some (.number (f x y)) := by
        rw [R.arithmetic]
        exact hbin x y
      exact yields_number fun n => by simp [Machine.exec, Machine.compute, hx, hy, hbin]
  case h_2 pred _ hcomp =>
    refine ((converts_toScalar R).binary (f := fun x y => ofTruth (pred.holds x y))
      (i := fun l r n => .fcmp n pred l r) (.inr rfl) (fun l r hty => rfl) (fun _ _ _ => rfl)
      (fun φ l r x y hx hy => ?_) hl hr).mono
      fun code b v _ h => ⟨h.1, _, binary?_of_comparison hcomp, h.2⟩
    have hx' : φ.number l = some x := by rw [Frame.number, hx]; rfl
    have hy' : φ.number r = some y := by rw [Frame.number, hy]; rfl
    exact yields_truth fun n => by simp [Machine.exec, Machine.compute, hx', hy']
  case h_3 bin _ _ hlogic =>
    obtain ⟨f, hf, hbin⟩ := binary?_of_logic (N := N) hlogic
    refine ((converts_toBoolean R).binary (f := fun x y => ofTruth (f (isTrue x) (isTrue y)))
      (i := fun l r n => .binary n bin l r) (.inr rfl) (fun l r hty => ?_) (fun _ _ _ => rfl)
      (fun φ l r x y hx hy => ?_) hl hr).mono fun code b v _ h => ⟨h.1, _, hf, h.2⟩
    · rw [Emit.binary, hty]
    · have hbin : M.arithmetic.binary bin (.truth (isTrue x)) (.truth (isTrue y)) =
          some (.truth (f (isTrue x) (isTrue y))) := by
        rw [R.arithmetic]
        exact hbin _ _
      exact yields_truth fun n => by simp [Machine.exec, Machine.compute, hx, hy, hbin]
  case h_4 => exact Straight.throw

theorem straight_unary (op : String) (hv : IsNumber s.builder.nextReg v) :
    Straight ctx s (unary op v) fun code b w => IsScalar b.nextReg w ∧
      ∃ f, unary? N op = some f ∧ Computes R s.builder.nextReg f v code w := by
  unfold unary
  split
  case h_1 =>
    refine ((converts_toBoolean R).unary (f := fun x => ofTruth (!isTrue x))
      (i := fun w n => .binary n .xor w (.bool true)) (.inr rfl)
      (fun w hty => ?_) (fun _ _ => rfl) (fun φ w x hx => ?_) hv).mono fun code b w _ h =>
        ⟨h.1, _, rfl, h.2⟩
    · rw [Emit.binary, hty]
    · have hxor : M.arithmetic.binary .xor (.truth (isTrue x)) (.truth true) =
          some (.truth (!isTrue x)) := by
        cases isTrue x <;> rfl
      have htrue : φ.eval (.bool true) = some (.truth true) := rfl
      exact yields_truth fun n => by simp [Machine.exec, Machine.compute, hx, htrue, hxor]
  case h_2 =>
    refine ((converts_toScalar R).unary (f := N.neg) (i := fun w n => .fneg n w) (.inl rfl)
      (fun w hty => rfl) (fun _ _ => rfl) (fun φ w x hx => ?_) hv).mono fun code b w _ h =>
        ⟨h.1, _, rfl, h.2⟩
    have hx' : φ.number w = some x := by rw [Frame.number, hx]; rfl
    have hneg : M.arithmetic.neg x = N.neg x := by rw [R.arithmetic]
    exact yields_number fun n => by simp [Machine.exec, Machine.compute, hx', hneg]
  case h_3 => exact Straight.throw

end

end ScriptCompiler.Numeric
