import ScriptCompiler.Proofs.Numeric.Operators
import ScriptCompiler.Proofs.Observed.Source

/-!
# What programs with boxed variables run on

A program links against functions that keep the records of boxed variables and that print.
`Runtime N M` is what is assumed of them: a record has a current value, which `eigen_create` and
`eigen_update` set and `eigen_get_value` returns, and the numbers printed so far are those that the
two printing functions were given, in order. Records and output are views of the state of the
machine, whatever that is.

A run may be endless, so that it prints some numbers means that it comes to a point where they are
printed. Runs are compared by the number of their steps (`Machine.after`).
-/

namespace ScriptCompiler.Observed

open Ir Numeric

/-- The functions that print a number. -/
def printers : List String := [Catalog.printDouble, Catalog.printValue]

/-- The numbers that a call prints. -/
def shown (symbol : String) : List Datum → List Double
  | [.number x] => if symbol ∈ printers then [x] else []
  | _ => []

/-- What is assumed of the functions that a program links against. -/
structure Runtime {ω : Type} (N : Numbers) (M : Machine ω) where
  /-- The numbers printed so far. -/
  printed : ω → List Double
  /-- The current value of a record. -/
  value : ω → Address → Option Double
  arithmetic : M.arithmetic = N.toArithmetic
  /-- Only the printing functions print. -/
  prints : ∀ {symbol args w result w'}, M.call symbol args w = some (result, w') →
    printed w' = printed w ++ shown symbol args
  /-- They return, and change no record. -/
  print : ∀ {symbol}, symbol ∈ printers → ∀ x w,
    ∃ w', M.call symbol [.number x] w = some (none, w') ∧ value w' = value w
  /-- A new record has the value that it is given. -/
  create : ∀ x w, ∃ a w', M.call Catalog.boxCreate [.number x] w = some (some (.address a), w') ∧
    value w a = none ∧ value w' = Function.update (value w) a (some x)
  update : ∀ {a y w}, value w a = some y → ∀ x,
    ∃ w', M.call Catalog.boxUpdate [.address a, .number x] w = some (none, w') ∧
      value w' = Function.update (value w) a (some x)
  get : ∀ {a x w}, value w a = some x →
    ∃ w', M.call Catalog.boxValue [.address a] w = some (some (.number x), w') ∧
      value w' = value w

namespace Runtime

variable {ω : Type} {N : Numbers} {M : Machine ω} (R : Runtime N M) {f : Func}

/-- What generated code knows of these functions. -/
abbrev library : Library N M where
  printed := R.printed
  value := R.value
  arithmetic := R.arithmetic
  get := fun h => by
    obtain ⟨w, hget, hvalue⟩ := R.get h
    exact ⟨w, hget, hvalue, (R.prints hget).trans (List.append_nil _)⟩
  update := fun h x => by
    obtain ⟨w, hupdate, hvalue⟩ := R.update h x
    exact ⟨w, hupdate, hvalue, (R.prints hupdate).trans (List.append_nil _)⟩
  print := fun {symbol w} h x => by
    have hsymbol : symbol ∈ printers := by
      rcases h with rfl | ⟨rfl, -⟩ <;> simp [printers]
    obtain ⟨w', hprint, hvalue⟩ := R.print hsymbol x w
    exact ⟨w', hprint, hvalue, (R.prints hprint).trans (by rw [shown, if_pos hsymbol])⟩
  maths := False
  compute := False.elim

/-- A run of a function prints the numbers `out` and maybe more. -/
def Prints (f : Func) (memory : Address → Option Datum) (w : ω) (out : List Double) : Prop :=
  ∃ c, M.Reaches f (Machine.start f memory w) c ∧ out <+: R.printed c.frame.world

theorem world_exec {φ φ' : Frame ω} {i : Instr} (h : M.exec φ i = some φ') :
    φ'.world = φ.world ∨ ∃ callee xs result, i.callee? = some callee ∧
      M.call callee xs φ.world = some (result, φ'.world) := by
  cases i with
  | call dst ret callee args =>
    simp only [Machine.exec, Option.bind_eq_bind, Option.bind_eq_some_iff] at h
    obtain ⟨xs, -, ⟨result, w⟩, hcall, h⟩ := h
    have hworld : φ'.world = w := by
      cases dst with
      | none =>
        obtain rfl := Option.some.inj h
        rfl
      | some r =>
        cases result with
        | none => simp [Machine.afterCall] at h
        | some d =>
          obtain rfl := Option.some.inj h
          rfl
    exact .inr ⟨callee, xs, result, rfl, hworld ▸ hcall⟩
  | alloca dst ty =>
    obtain rfl := Option.some.inj h
    exact .inl rfl
  | store value ptr =>
    simp only [Machine.exec, Option.bind_eq_bind, Option.bind_eq_some_iff] at h
    obtain ⟨d, -, a, -, h⟩ := h
    obtain rfl := Option.some.inj h
    exact .inl rfl
  | gep | br | condBr | ret | unreachable => simp [Machine.exec] at h
  | load | binary | fneg | fcmp | icmp | cast =>
    obtain ⟨d, -, rfl⟩ := Option.map_eq_some_iff.mp h
    exact .inl rfl

theorem printed_exec {φ φ' : Frame ω} {i : Instr} (h : M.exec φ i = some φ') :
    R.printed φ.world <+: R.printed φ'.world := by
  rcases world_exec h with hworld | ⟨callee, xs, result, -, hcall⟩
  · exact hworld ▸ List.prefix_refl _
  · rw [R.prints hcall]
    exact List.prefix_append _ _

theorem printed_step {c c' : Config ω} (h : M.step f c = some c') :
    R.printed c.frame.world <+: R.printed c'.frame.world := by
  obtain ⟨code, φ⟩ := c
  cases code with
  | nil => simp [Machine.step] at h
  | cons i rest =>
    cases i with
    | br target =>
      simp only [Machine.step, Option.bind_eq_bind, Option.bind_eq_some_iff] at h
      obtain ⟨b, -, h⟩ := h
      obtain rfl := Option.some.inj h
      exact List.prefix_refl _
    | condBr cond yes no =>
      simp only [Machine.step, Option.bind_eq_bind, Option.bind_eq_some_iff] at h
      obtain ⟨n, -, b, -, h⟩ := h
      obtain rfl := Option.some.inj h
      exact List.prefix_refl _
    | _ =>
      simp only [Machine.step, Option.bind_eq_bind, Option.bind_eq_some_iff] at h
      obtain ⟨φ', hexec, h⟩ := h
      obtain rfl := Option.some.inj h
      exact R.printed_exec hexec

theorem printed_reaches {c c' : Config ω} (h : M.Reaches f c c') :
    R.printed c.frame.world <+: R.printed c'.frame.world := by
  induction h with
  | refl => exact List.prefix_refl _
  | tail _ hstep ih => exact ih.trans (R.printed_step hstep)

theorem prints_iff_of_run {memory : Address → Option Datum} {w w' : ω} {fuel : Nat}
    {result : Option Datum} (h : M.run f fuel (Machine.start f memory w) = some (result, w'))
    (out : List Double) : R.Prints f memory w out ↔ out <+: R.printed w' := by
  obtain ⟨k, c', hk, hlast, rfl⟩ := Machine.after_of_run h
  constructor
  · rintro ⟨c, hreach, hout⟩
    obtain ⟨n, hn⟩ := Machine.reaches_iff_after.mp hreach
    have hle : n ≤ k := by
      by_contra hlt
      obtain ⟨m, rfl⟩ := Nat.exists_eq_add_of_le (Nat.succ_le_of_lt (Nat.lt_of_not_le hlt))
      rw [Nat.succ_eq_add_one, Nat.add_assoc, Machine.after_add, hk, Nat.add_comm] at hn
      simp [Machine.after, hlast] at hn
    exact hout.trans (R.printed_reaches (Machine.reaches_of_after_le hn hk hle))
  · intro hout
    exact ⟨c', Machine.reaches_iff_after.mpr ⟨k, hk⟩, hout⟩

/-! ## Silent code -/

/-- The instruction jumps nowhere and prints nothing. -/
structure IsSilent (i : Instr) : Prop where
  successors : i.successors = []
  callee : ∀ symbol, i.callee? = some symbol → symbol ∉ printers

theorem printed_exec_of_isSilent {φ φ' : Frame ω} {i : Instr} (hi : IsSilent i)
    (h : M.exec φ i = some φ') : R.printed φ'.world = R.printed φ.world := by
  rcases world_exec h with hworld | ⟨callee, xs, result, hcallee, hcall⟩
  · rw [hworld]
  · have hshown : shown callee xs = [] := by
      unfold shown
      split
      · exact if_neg (hi.callee callee hcallee)
      · rfl
    rw [R.prints hcall, hshown, List.append_nil]

theorem printed_of_isSilent {code : List Instr} {φ : Frame ω} {c : Config ω}
    (hcode : ∀ i ∈ code, IsSilent i) (h : M.Reaches f ⟨code, φ⟩ c) :
    R.printed c.frame.world = R.printed φ.world ∧ ∀ i ∈ c.code, IsSilent i := by
  induction h with
  | refl => exact ⟨rfl, hcode⟩
  | @tail c c' _ hstep ih =>
    obtain ⟨hprinted, hsilent⟩ := ih
    obtain ⟨code', ψ⟩ := c
    cases code' with
    | nil => simp [Machine.step] at hstep
    | cons i rest =>
      obtain ⟨hi, hrest⟩ := List.forall_mem_cons.mp hsilent
      cases i with
      | br | condBr => simpa [Instr.successors] using hi.successors
      | _ =>
        simp only [Machine.step, Option.bind_eq_bind, Option.bind_eq_some_iff] at hstep
        obtain ⟨φ', hexec, hstep⟩ := hstep
        obtain rfl := Option.some.inj hstep
        exact ⟨(R.printed_exec_of_isSilent hi hexec).trans hprinted, hrest⟩

end Runtime

end ScriptCompiler.Observed
