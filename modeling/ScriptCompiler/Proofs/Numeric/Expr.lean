import ScriptCompiler.Proofs.Numeric.Operators
import ScriptCompiler.Proofs.Observed.Source

/-!
# The meaning of the code of an expression

A variable has a slot with a number, or a global with the address of a record that has its value
(`Stored`). The code of an expression is straight-line code that, run in a frame that has the values
of the variables, gives the value of the expression and prints what its evaluation prints
(`straight_expr`). Where all variables have values the evaluation succeeds, since lowering fails on a
name that is no variable.

Only a bare name gives a record, and then the code is the load of its address.
-/

namespace ScriptCompiler.Numeric

open Ir Lowering

/-- What is settled for a program that imports nothing and has no functions. -/
structure PlainContext (ctx : Context) : Prop where
  program : ctx.naming.mode = .program
  modules : ctx.naming.importedModules = []
  names : ctx.naming.importedNames = []
  shared : ctx.shared = []

/-- The variable has a stack slot for a number. -/
def IsPlainVar (b : Binding) : Prop := ∃ r, b = ⟨.fastSlot, .scalar, .reg r .ptr⟩

/-- The variable has a global with the address of a record. -/
def IsBoxedVar (name : String) (b : Binding) : Prop :=
  ∃ storage : StorageClass, storage.isTracked = true ∧
    b = ⟨storage, .tracked, .global ("main." ++ name)⟩

/-- Every variable of the table is plain or boxed, and no two have one slot. -/
structure Separate (t : Table Binding) : Prop where
  vars : ∀ name b, t.lookup name = some b → IsPlainVar b ∨ IsBoxedVar name b
  distinct : ∀ name name' r, slotsOf t name = some r → slotsOf t name' = some r → name = name'

/-- The state in a program: slots are registers that are taken, there are boxed variables only if all
variables have values, and the names `bound` are those of the variables. -/
structure Plain (whole : Prop) (bound : List String) (s : State) : Prop
    extends Separate s.globals where
  top : s.scope = .topLevel
  functions : s.functions = []
  under : ∀ {name r}, slotsOf s.globals name = some r → r < s.builder.nextReg
  boxed : ∀ {name b}, s.globals.lookup name = some b → IsBoxedVar name b → whole
  bound : ∀ name, name ∈ bound ↔ (s.globals.lookup name).isSome

theorem Plain.build {whole : Prop} {bound : List String} {s : State} (h : Plain whole bound s)
    {b : Builder} (hle : s.builder.nextReg ≤ b.nextReg) :
    Plain whole bound { s with builder := b } :=
  { h with under := fun hr => Nat.lt_of_lt_of_le (h.under hr) hle }

section

variable {ω : Type} {N : Numbers} {M : Machine ω}

/-- Where a variable is, its value is stored: a number in a slot, or a record of that value behind a
global. -/
def Stored (R : Library N M) (φ : Frame ω) (slot : Value) (x : Double) : Prop :=
  match slot.op with
  | .reg r => φ.memory (.slot r) = some (.number x)
  | .global symbol =>
    ∃ a, φ.memory (.global symbol) = some (.address a) ∧ R.value φ.world a = some x
  | _ => False

/-- A frame has the values of the variables of a table, as far as they have one. -/
structure Agrees (R : Library N M) (t : Table Binding) (φ : Frame ω)
    (vars : String → Option Double) : Prop where
  framed : ∀ name r, slotsOf t name = some r → φ.regs r = some (.address (.slot r))
  stored : ∀ name b x, t.lookup name = some b → vars name = some x → Stored R φ b.slot x

/-- All variables of a table have values. -/
def Known (t : Table Binding) (vars : String → Option Double) : Prop :=
  ∀ name, (t.lookup name).isSome → (vars name).isSome

/-- Code computes the value of an expression and prints what its evaluation prints. -/
def Means (R : Library N M) (t : Table Binding) (n : Reg) (node : Node) (code : List Instr)
    (v : Typed) : Prop :=
  ∀ φ (ρ : Store), Agrees R t φ ρ.vars →
    Ends (Known t ρ.vars) (eval N node ρ) fun x ρ' => ∃ out φ',
      ρ' = { ρ with output := ρ.output ++ out } ∧ Keeps R n φ code out φ' ∧ Denotes R φ' v x

/-- A value that is a record is that of a variable, whose address was just loaded. -/
def IsBare (t : Table Binding) (node : Node) (code : List Instr) (v : Typed) : Prop :=
  v.kind = .tracked → ∃ name b r, node = .identifier name ∧ t.lookup name = some b ∧
    IsBoxedVar name b ∧ code = [.load r .ptr b.slot] ∧ v.value = .reg r .ptr

/-- What holds of the code of an expression. -/
structure Evaluated (R : Library N M) (t : Table Binding) (n : Reg) (node : Node)
    (code : List Instr) (b : Builder) (v : Typed) : Prop where
  number : IsNumber b.nextReg v
  bare : IsBare t node code v
  means : Means R t n node code v

end

section

variable {ω : Type} {N : Numbers} {M : Machine ω} {R : Library N M} {ctx : Context} {s : State}
  {whole : Prop} {bound : List String} {node left right : Node} {t : Table Binding} {φ φ' : Frame ω} {n m : Reg}
  {code : List Instr} {out : List Double} {vars : String → Option Double}

/-- Code that reads leaves the values of variables as they are. -/
theorem Stored.keeps {slot : Value} {x : Double} (h : Stored R φ slot x)
    (hk : Keeps R n φ code out φ') : Stored R φ' slot x := by
  unfold Stored at h ⊢
  rw [hk.memory, hk.value]
  exact h

theorem Agrees.keeps (h : Agrees R t φ vars) (ht : ∀ {name r}, slotsOf t name = some r → r < n)
    (hk : Keeps R n φ code out φ') : Agrees R t φ' vars where
  framed := fun name r hr => (hk.regs r (ht hr)).trans (h.framed name r hr)
  stored := fun name b x hb hx => (h.stored name b x hb hx).keeps hk

theorem isBare_of_scalar {v : Typed} (h : v.kind = .scalar) : IsBare t node code v := by
  intro htracked
  simp [h] at htracked

/-! ## Constants and variables -/

theorem straight_const {v : Value} {x : Double} (hv : v.reg? = none)
    (hty : v.ty = .double ∨ v.ty = .bool) (hx : ∀ φ, Denotes R φ (.scalar v) x)
    (heval : eval N node = pure x) :
    Straight ctx s (pure (.scalar v)) (Evaluated R t n node) := by
  refine Straight.pure ⟨⟨.inl ⟨rfl, hty⟩, fun r hr => by simp [Typed.scalar, hv] at hr⟩,
    isBare_of_scalar rfl, fun φ ρ _ => ?_⟩
  rw [heval]
  exact ⟨[], φ, by rw [List.append_nil], .refl R n φ, hx φ⟩

theorem straight_literal {value : Literal} (h : isExpr bound (.literal value)) :
    Straight ctx s (literal value) (Evaluated R t n (.literal value)) := by
  cases value with
  | number x => exact straight_const rfl (.inl rfl) (fun φ => .inl ⟨rfl, rfl, rfl⟩) (by rw [eval])
  | null => exact straight_const rfl (.inl rfl) (fun φ => .inl ⟨rfl, rfl, rfl⟩) (by rw [eval])
  | text value => simp [isExpr] at h

theorem straight_load {name : String} {b : Binding} (hname : s.globals.lookup name = some b)
    (hb : IsPlainVar b ∨ IsBoxedVar name b)
    (hvalue : nameValue name = do let ρ ← get; ρ.vars name) :
    Straight ctx s (liftM (load b))
      (Evaluated R s.globals s.builder.nextReg (.identifier name)) := by
  refine Straight.emit_bind (Q := fun code b' v => code = [.load s.builder.nextReg
    b.storage.slotType b.slot] ∧ v = .reg s.builder.nextReg b.storage.slotType ∧
    b'.nextReg = s.builder.nextReg + 1) (Straight.define (fun _ => rfl) fun _ hb => ⟨rfl, rfl, hb⟩) ?_
  rintro code b' v _ ⟨rfl, rfl, hb'⟩
  -- Loading gives what is stored, so that only the datum is left to say.
  have hmeans : (∀ φ x, (∀ r, b.slot.reg? = some r → φ.regs r = some (.address (.slot r))) →
      Stored R φ b.slot x → ∃ d, M.exec φ (.load s.builder.nextReg b.storage.slotType b.slot) =
        some (φ.set s.builder.nextReg d) ∧ Denotes R (φ.set s.builder.nextReg d)
          ⟨.reg s.builder.nextReg b.storage.slotType, b.kind⟩ x) →
      Means R s.globals s.builder.nextReg (.identifier name)
        [.load s.builder.nextReg b.storage.slotType b.slot]
        ⟨.reg s.builder.nextReg b.storage.slotType, b.kind⟩ := by
    intro h φ ρ hagrees
    rw [eval, hvalue]
    refine ends_var (fun hnone hknown => ?_) fun x hx => ?_
    · simpa [hnone] using hknown name (by simp [hname])
    · obtain ⟨d, hexec, hd⟩ := h φ x (fun r hr => hagrees.framed name r (by simp [slotsOf, hname, hr]))
        (hagrees.stored name b x hname hx)
      exact ⟨[], _, by rw [List.append_nil], keeps_set hexec, hd⟩
  refine Straight.pure ?_
  rcases hb with ⟨r, rfl⟩ | ⟨storage, hstorage, rfl⟩
  · refine ⟨(hb' ▸ isScalar_reg (.inl rfl)).isNumber, isBare_of_scalar rfl,
      hmeans fun φ x hframed hmemory => ⟨.number x, ?_, .inl ⟨rfl, rfl, Frame.regs_set⟩⟩⟩
    have hplace : φ.place (.reg r .ptr) = some (.slot r) := by
      show (φ.regs r).bind _ = _
      rw [hframed r rfl]
      rfl
    have hmemory : φ.memory (.slot r) = some (.number x) := hmemory
    simp [Machine.exec, Machine.compute, hplace, hmemory]
  · have hty : storage.slotType = .ptr := by
      cases storage <;> simp_all [StorageClass.isTracked, StorageClass.slotType]
    refine ⟨⟨.inr ⟨rfl, hty⟩, hb' ▸ below_reg _ _⟩, fun _ => ⟨name, _, s.builder.nextReg, rfl, hname,
      ⟨storage, hstorage, rfl⟩, by rw [hty, List.append_nil], by rw [hty]⟩,
      hmeans fun φ x _ hstored => ?_⟩
    obtain ⟨a, hmemory, hrecord⟩ := hstored
    have hplace : φ.place (.global ("main." ++ name)) = some (.global ("main." ++ name)) := rfl
    exact ⟨.address a, by simp [Machine.exec, Machine.compute, hplace, hmemory],
      .inr (.inr ⟨rfl, hty, a, Frame.regs_set, hrecord⟩)⟩

theorem straight_name {name : String} {Q : List Instr → Builder → Typed → Prop}
    (hnames : ctx.naming.importedNames = []) (htop : s.scope = .topLevel)
    (hpredicate : s.globals.lookup name = none → Catalog.predicate? name = none)
    (htruth : ∀ b, nameValue name = pure (ofTruth b) → Straight ctx s (pure (.scalar (.bool b))) Q)
    (hload : ∀ b, s.globals.lookup name = some b → nameValue name = (do let σ ← get; σ.vars name) →
      Straight ctx s (liftM (load b)) Q) : Straight ctx s (identifier name) Q := by
  unfold identifier
  split
  case isTrue hname => exact htruth true (if_pos hname)
  case isFalse hnotTrue =>
    split
    case isTrue hname =>
      refine htruth false ?_
      rw [nameValue, if_neg hnotTrue, if_pos hname]
    case isFalse hnotFalse =>
      have hfind : s.find? name = s.globals.lookup name := by simp [State.find?, htop]
      refine Straight.get_bind ?_
      rw [hfind]
      cases hlook : s.globals.lookup name with
      | some b =>
        refine hload b hlook ?_
        rw [nameValue, if_neg hnotTrue, if_neg hnotFalse]
      | none =>
        -- A name that has no value is neither a predicate nor imported.
        have hdefer : ctx.naming.mayDefer name s.scope = false := by
          simp [Naming.mayDefer, htop, hnames]
        unfold unboundName
        refine Straight.get_bind ?_
        simp only [htop, hpredicate hlook]
        refine Straight.read_bind ?_
        rw [← htop, hdefer]
        exact Straight.get_bind Straight.throw

theorem straight_identifier {name : String} (hctx : PlainContext ctx) (hs : Plain whole bound s)
    (h : isExpr bound (.identifier name)) :
    Straight ctx s (identifier name)
      (Evaluated R s.globals s.builder.nextReg (.identifier name)) := by
  refine straight_name hctx.names hs.top (fun hnone => ?_) (fun b hvalue => ?_) fun b hb hvalue => ?_
  · have hbound : name ∉ bound := fun hmem => by simpa [hnone] using (hs.bound name).mp hmem
    simpa [isExpr, hbound] using h
  · exact straight_const rfl (.inr rfl) (fun φ => .inr (.inl ⟨rfl, rfl, b, rfl, rfl⟩))
      (by rw [eval, hvalue])
  · exact straight_load hb (hs.vars name b hb) hvalue

/-! ## Operations -/

/-- An operation on one expression. -/
theorem straight_one {k : Typed → Lower Typed} {operand : Node} {F : Option (Double → Double)}
    (h : Straight ctx s (expr operand) (Evaluated R t s.builder.nextReg operand))
    (hk : ∀ (b : Builder) (v : Typed), IsNumber b.nextReg v →
      Straight ctx { s with builder := b } (k v) fun code b' w => IsScalar b'.nextReg w ∧
        ∃ f, F = some f ∧ Computes R b.nextReg f v code w)
    (heval : eval N node = do let x ← eval N operand; let f ← F; return f x) :
    Straight ctx s (expr operand >>= k) (Evaluated R t s.builder.nextReg node) := by
  refine h.bind ?_
  rintro code b v hcode ⟨hv, -, hmeans⟩
  refine (hk b v hv).mono ?_
  rintro code' b' w - ⟨hw, f, rfl, hcomputes⟩
  refine ⟨hw.isNumber, isBare_of_scalar hw.kind, fun φ ρ hagrees => ?_⟩
  rw [heval]
  refine (hmeans φ ρ hagrees).bind ?_
  rintro x _ ⟨out, φ₁, rfl, hkeeps₁, hv₁⟩
  obtain ⟨φ₂, hkeeps₂, hw₂⟩ := hcomputes φ₁ x hv₁
  exact ⟨out, φ₂, rfl, by simpa using hkeeps₁.trans hkeeps₂ hcode.next, hw₂⟩

/-- An operation on two expressions. -/
theorem straight_two {k : Typed → Typed → Lower Typed} {F : Option (Double → Double → Double)}
    (ht : ∀ {name r}, slotsOf t name = some r → r < s.builder.nextReg)
    (hl : Straight ctx s (expr left) (Evaluated R t s.builder.nextReg left))
    (hr : ∀ b : Builder, s.builder.nextReg ≤ b.nextReg →
      Straight ctx { s with builder := b } (expr right) (Evaluated R t b.nextReg right))
    (hk : ∀ (b : Builder) (v w : Typed), IsNumber b.nextReg v → IsNumber b.nextReg w →
      Straight ctx { s with builder := b } (k v w) fun code b' u => IsScalar b'.nextReg u ∧
        ∃ f, F = some f ∧ Computes₂ R b.nextReg f v w code u)
    (heval : eval N node = do
      let x ← eval N left
      let y ← eval N right
      let f ← F
      return f x y) :
    Straight ctx s (do let v ← expr left; let w ← expr right; k v w)
      (Evaluated R t s.builder.nextReg node) := by
  refine hl.bind ?_
  rintro code₁ b₁ v hcode₁ ⟨hv, -, hmeans₁⟩
  refine (hr b₁ hcode₁.next).bind ?_
  rintro code₂ b₂ w hcode₂ ⟨hw, -, hmeans₂⟩
  refine (hk b₂ v w (hv.mono hcode₂.next) hw).mono ?_
  rintro code₃ b₃ u hcode₃ ⟨hu, f, rfl, hcomputes⟩
  refine ⟨hu.isNumber, isBare_of_scalar hu.kind, fun φ ρ hagrees => ?_⟩
  rw [heval]
  refine (hmeans₁ φ ρ hagrees).bind ?_
  rintro x _ ⟨out₁, φ₁, rfl, hkeeps₁, hv₁⟩
  refine (hmeans₂ φ₁ { ρ with output := ρ.output ++ out₁ } (hagrees.keeps ht hkeeps₁)).bind ?_
  rintro y _ ⟨out₂, φ₂, rfl, hkeeps₂, hw₂⟩
  -- The second operand changes no record and no register of the first one.
  obtain ⟨φ₃, hkeeps₃, hu₃⟩ := hcomputes φ₂ x y (hv₁.keeps hv.below hkeeps₂) hw₂
  exact ⟨out₁ ++ out₂, φ₃, by rw [← List.append_assoc],
    by simpa using hkeeps₁.trans (hkeeps₂.trans hkeeps₃ hcode₂.next) hcode₁.next, hu₃⟩

theorem straight_congr {α : Type} {m m' : Lower α} {Q : List Instr → Builder → α → Prop}
    (hm : m ctx s = m' ctx s) (h : Straight ctx s m' Q) : Straight ctx s m Q :=
  fun _ _ hrun => h (hm.symm.trans hrun)

theorem applyName_builtin {name : String} {a : Argument} {f : Argument → Lower Typed}
    (hs : s.functions = []) (hpredicate : Catalog.predicate? name = none)
    (hf : builtin? name = some f) : applyName name a ctx s = f a ctx s := by
  have hroutine : s.routine? name = none := by simp [State.routine?, hs]
  unfold applyName
  rw [run_get, hroutine, hpredicate, hf]

theorem ofName?_eq_print {name : String} (h : Builtin.ofName? name = some .print) :
    name = "print" := by
  unfold Builtin.ofName? at h
  split at h <;> simp_all

theorem ofName?_eq_pow {name : String} (h : Builtin.ofName? name = some .pow) : name = "pow" := by
  unfold Builtin.ofName? at h
  split at h <;> simp_all

theorem ofName?_eq_math {name : String} {f : Math} (h : Builtin.ofName? name = some (.math f)) :
    Catalog.predicate? name = none ∧ ∃ symbol,
      builtin? name = some (fun a => do mathOf symbol (← a.whole)) ∧
      ∀ x out, call N symbol [.number x] out = some (some (.number (N.math f x)), out) := by
  have hword : Math.ofWord? name = some f := by
    unfold Builtin.ofName? at h
    split at h <;> simp_all
  unfold Math.ofWord? at hword
  split at hword
  case h_1 | h_2 | h_3 | h_4 | h_5 | h_6 | h_7 | h_8 =>
    obtain rfl := Option.some.inj hword
    exact ⟨rfl, _, rfl, fun _ _ => rfl⟩
  case h_9 => simp at hword

theorem straight_math {name : String} {f : Math} {argument : Node} (hmaths : R.maths)
    (hs : s.functions = []) (hname : Builtin.ofName? name = some (.math f))
    (h : Straight ctx s (expr argument) (Evaluated R t s.builder.nextReg argument)) :
    Straight ctx s (applyName name ⟨expr argument, writtenElements argument⟩)
      (Evaluated R t s.builder.nextReg (.relation (.identifier name) argument)) := by
  obtain ⟨hpredicate, symbol, hbuiltin, hcall⟩ := ofName?_eq_math (N := N) hname
  refine straight_congr (applyName_builtin hs hpredicate hbuiltin) ?_
  refine straight_one (F := some (N.math f)) h (fun b v hv => ?_) ?_
  · refine ((converts_toScalar R).unary (e := fun w => Emit.call .double symbol [w])
      (i := fun w n => .call (some n) .double symbol [w]) (.inl rfl) (fun _ _ => rfl)
      (fun _ _ => rfl) (fun φ w x hx => ?_) hv).mono fun _ _ _ _ hw => ⟨hw.1, N.math f, rfl, hw.2⟩
    exact yields_call hmaths (by simp [hx]) (hcall x)
  · rw [eval]
    simp only [hname]
    rfl

theorem straight_power (hmaths : R.maths)
    (ht : ∀ {name r}, slotsOf t name = some r → r < s.builder.nextReg)
    (hl : Straight ctx s (expr left) (Evaluated R t s.builder.nextReg left))
    (hr : ∀ b : Builder, s.builder.nextReg ≤ b.nextReg →
      Straight ctx { s with builder := b } (expr right) (Evaluated R t b.nextReg right)) :
    Straight ctx s (power ⟨expr (.listLiteral [left, right]),
        writtenElements (.listLiteral [left, right])⟩)
      (Evaluated R t s.builder.nextReg
        (.relation (.identifier "pow") (.listLiteral [left, right]))) := by
  have hpower : power ⟨expr (.listLiteral [left, right]),
      writtenElements (.listLiteral [left, right])⟩ = (do
        let v ← expr left
        let w ← expr right
        let base ← toScalar v
        let exponent ← toScalar w
        let u ← Emit.call .double Catalog.pow [base, exponent]
        return .scalar u) := by
    simp [power, Argument.values, writtenElements, exprs]
  rw [hpower]
  refine straight_two (F := some N.pow) ht hl hr (fun b v w hv hw => ?_) ?_
  · refine ((converts_toScalar R).binary (e := fun v w => Emit.call .double Catalog.pow [v, w])
      (i := fun v w n => .call (some n) .double Catalog.pow [v, w]) (.inl rfl) (fun _ _ _ => rfl)
      (fun _ _ _ => rfl) (fun φ v w x y hx hy => ?_) hv hw).mono
        fun _ _ _ _ hu => ⟨hu.1, N.pow, rfl, hu.2⟩
    have hargs : [v, w].mapM φ.eval = some [.number x, .number y] := by simp [hx, hy]
    exact yields_call hmaths hargs fun _ => rfl
  · rw [eval]
    simp only [evalElements, evalAll, bind_assoc, pure_bind]
    rfl

theorem straight_print {argument : Node}
    (h : Straight ctx s (expr argument) (Evaluated R t s.builder.nextReg argument)) :
    Straight ctx s (do print (← expr argument))
      (Evaluated R t s.builder.nextReg (.relation (.identifier "print") argument)) := by
  refine h.bind ?_
  rintro code b v hcode ⟨hv, -, hmeans⟩
  -- A record is printed by a function of its own.
  obtain ⟨symbol, hsymbol, hprint⟩ : ∃ symbol, (symbol = Catalog.printDouble ∨
      (symbol = Catalog.printValue ∧ v.kind = .tracked)) ∧ print v = (do
      let scalar ← toScalar v
      Emit.callVoid symbol [scalar]
      return .scalar (.float .zero) : Lower Typed) := by
    rcases hv.kind with ⟨hkind, -⟩ | ⟨hkind, -⟩
    · exact ⟨Catalog.printDouble, .inl rfl, by simp [print, hkind]⟩
    · exact ⟨Catalog.printValue, .inr ⟨rfl, hkind⟩, by simp [print, hkind]⟩
  rw [hprint]
  refine (converts_toScalar R { s with builder := b } v hv).bind ?_
  rintro code' b' w hcode' ⟨-, -, hw⟩
  refine (Straight.push (Q := fun code b _ => code = [.call none .void symbol [w]] ∧
    b.nextReg = b'.nextReg) rfl fun b hb => ⟨rfl, hb⟩).bind ?_
  rintro _ b'' _ _ ⟨rfl, -⟩
  refine Straight.pure ⟨⟨.inl ⟨rfl, .inl rfl⟩, fun r hr => by
    simp [Typed.scalar, Value.reg?, Value.float] at hr⟩, isBare_of_scalar rfl, ?_⟩
  intro φ ρ hagrees
  rw [eval]
  refine (hmeans φ ρ hagrees).bind ?_
  rintro x _ ⟨out, φ₁, rfl, hkeeps₁, hv₁⟩
  obtain ⟨φ₂, hkeeps₂, hx₂⟩ := hw φ₁ x hv₁
  have hrecord : symbol = Catalog.printDouble ∨
      (symbol = Catalog.printValue ∧ ∃ a y, R.value φ₂.world a = some y) := by
    refine hsymbol.imp_right fun hvalue => ⟨hvalue.1, ?_⟩
    have hkind := hvalue.2
    rcases hv₁ with ⟨hscalar, -⟩ | ⟨hscalar, -⟩ | ⟨-, -, a, -, ha⟩
    · simp [hkind] at hscalar
    · simp [hkind] at hscalar
    · exact ⟨a, x, hkeeps₂.value ▸ ha⟩
  obtain ⟨world, hcall, hvalue, hprinted⟩ := R.print hrecord x
  have hargs : [w].mapM φ₂.eval = some [.number x] := by simp [hx₂]
  have hkeeps₃ : Keeps R b'.nextReg φ₂ [.call none .void symbol [w]] [x]
      { φ₂ with world := world } :=
    ⟨by simp [Machine.execAll, exec_call hargs hcall], fun _ _ => rfl, rfl, hvalue, hprinted⟩
  exact ⟨out ++ [x], { φ₂ with world := world }, by rw [← List.append_assoc]; rfl,
    by simpa using hkeeps₁.trans (hkeeps₂.trans hkeeps₃ hcode'.next) hcode.next,
    .inl ⟨rfl, rfl, rfl⟩⟩

end

/-! ## The tree -/

section

variable {ω : Type} {N : Numbers} {M : Machine ω} (R : Library N M) {ctx : Context}
  {whole : Prop} {bound : List String}

mutual

/-- The code of an expression computes its value. Where there is no mathematical library the
expression calls none of its functions. -/
theorem straight_expr (hctx : PlainContext ctx) : (node : Node) → isExpr bound node →
    R.maths ∨ Observed.isExpr bound node → ∀ s, Plain whole bound s →
      Straight ctx s (expr node) (Evaluated R s.globals s.builder.nextReg node)
  | .literal value, h, _, s, _ => by
    rw [expr]
    exact straight_literal h
  | .identifier name, h, _, s, hs => by
    rw [expr]
    exact straight_identifier hctx hs h
  | .binary op left right, h, hm, s, hs => by
    rw [expr]
    simp only [isExpr, Observed.isExpr, Bool.and_eq_true] at h hm
    exact straight_two (F := binary? N op) hs.under
      (straight_expr hctx left h.1.2 (hm.imp_right (·.1.2)) s hs)
      (fun b hb => straight_expr hctx right h.2 (hm.imp_right And.right) { s with builder := b }
        (hs.build hb))
      (fun b v w hv hw => straight_binary op hv hw) (by rw [eval])
  | .unary op operand, h, hm, s, hs => by
    rw [expr]
    simp only [isExpr, Observed.isExpr, Bool.and_eq_true] at h hm
    exact straight_one (F := unary? N op)
      (straight_expr hctx operand h.2 (hm.imp_right And.right) s hs)
      (fun b v hv => straight_unary op hv) (by rw [eval])
  | .relation callee argument, h, hm, s, hs => by
    cases callee with
    | identifier name =>
      rw [expr]
      simp only [Observed.isExpr, Bool.and_eq_true, decide_eq_true_eq] at hm
      rw [isExpr] at h
      cases hname : Builtin.ofName? name with
      | none => simp [hname] at h
      | some builtin =>
        simp only [hname] at h
        cases builtin with
        | print =>
          obtain rfl := ofName?_eq_print hname
          exact straight_congr (applyName_builtin hs.functions rfl rfl)
            (straight_print (straight_expr hctx argument h (hm.imp_right And.right) s hs))
        | math f =>
          have hmaths : R.maths := hm.resolve_right fun ⟨heq, _⟩ => by simp [heq, Builtin.ofName?] at hname
          exact straight_math hmaths hs.functions hname
            (straight_expr hctx argument h (.inl hmaths) s hs)
        | pow =>
          have hmaths : R.maths := hm.resolve_right fun ⟨heq, _⟩ => by simp [heq, Builtin.ofName?] at hname
          obtain rfl := ofName?_eq_pow hname
          obtain ⟨left, right, rfl, hl, hr⟩ := straight_pair hctx hmaths argument h
          exact straight_congr (applyName_builtin hs.functions rfl rfl)
            (straight_power hmaths hs.under (hl s hs) fun b hb => hr { s with builder := b } (hs.build hb))
    | _ => simp [isExpr] at h
  | .listLiteral _, h, _, _, _ | .index .., h, _, _, _ | .memberAccess .., h, _, _, _
  | .structLiteral .., h, _, _, _ | .interrogative .., h, _, _, _ | .assignment .., h, _, _, _
  | .indexedAssignment .., h, _, _, _ | .functionDef .., h, _, _, _ | .ret _, h, _, _, _
  | .breakLoop, h, _, _, _ | .conditional .., h, _, _, _ | .loop .., h, _, _, _
  | .structDef .., h, _, _, _ | .importModule _, h, _, _, _ => by simp [isExpr] at h

theorem straight_pair (hctx : PlainContext ctx) (hmaths : R.maths) : (node : Node) →
    isPair bound node → ∃ left right, node = .listLiteral [left, right] ∧
      (∀ s, Plain whole bound s →
        Straight ctx s (expr left) (Evaluated R s.globals s.builder.nextReg left)) ∧
      ∀ s, Plain whole bound s →
        Straight ctx s (expr right) (Evaluated R s.globals s.builder.nextReg right)
  | .listLiteral elements, h => by
    simp only [isPair, Bool.and_eq_true, decide_eq_true_eq] at h
    have hall := straight_exprs hctx hmaths elements h.2
    obtain ⟨left, right, rfl⟩ := List.length_eq_two.mp h.1
    exact ⟨left, right, rfl, hall left (by simp), hall right (by simp)⟩
  | .literal _, h | .identifier _, h | .binary .., h | .unary .., h | .index .., h
  | .memberAccess .., h | .structLiteral .., h | .interrogative .., h | .assignment .., h
  | .indexedAssignment .., h | .functionDef .., h | .ret _, h | .breakLoop, h
  | .conditional .., h | .loop .., h | .structDef .., h | .importModule _, h
  | .relation .., h => by simp [isPair] at h

theorem straight_exprs (hctx : PlainContext ctx) (hmaths : R.maths) : (nodes : List Node) →
    areExprs bound nodes → ∀ node ∈ nodes, ∀ s, Plain whole bound s →
      Straight ctx s (expr node) (Evaluated R s.globals s.builder.nextReg node)
  | [], _ => by simp
  | first :: rest, h => by
    simp only [areExprs, Bool.and_eq_true] at h
    exact List.forall_mem_cons.mpr
      ⟨straight_expr hctx first h.1 (.inl hmaths), straight_exprs hctx hmaths rest h.2⟩

end

end

end ScriptCompiler.Numeric
