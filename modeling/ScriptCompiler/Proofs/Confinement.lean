import ScriptCompiler.Proofs.Access.Unit
import ScriptCompiler.Proofs.ControlFlow

/-!
# Boxed records stay in their functions

The record of a boxed variable of a function is in the frame of the function, so its address must not
outlive the call. `Func.MayUse` says what a function may do with such an address: pass it as the record
to a function of the runtime that takes one, compare it with null, or store it in a stack slot of its
own. Every function of a unit does no more than that with the address of any boxed record, be it in its
frame or that of a variable (`generate_confinesRecords`). The entry function has no records in its
frame.

An access lets an instruction have the address of a boxed record as an operand only in these ways
(`Access.Keeps.mayUse`).
-/

namespace ScriptCompiler

/-- What a function may do with the address of a boxed record. -/
inductive Ir.Func.MayUse (f : Func) (v : Value) : Instr → Prop where
  /-- It is the record for a function of the runtime that takes one, and none of its other
  arguments. -/
  | pass {callee : String} {args : List Value} (dst : Option Reg) (ret : Ty)
      (takes : callee = Catalog.boxInit ∨ callee ∈ Catalog.recordFunctions) (once : v ∉ args) :
      MayUse f v (.call dst ret callee (v :: args))
  | compare (dst : Reg) (pred : IntPred) : MayUse f v (.icmp dst pred v .null)
  /-- It is stored in a stack slot for addresses. -/
  | keep {r : Reg} (slot : .alloca r .ptr ∈ f.instrs) : MayUse f v (.store v (.reg r .ptr))

/-- The instruction reserves a boxed record in the frame. -/
def Ir.Instr.isRecordSlot : Ir.Instr → Bool
  | .alloca _ ty => ty = .named Ir.recordTypeName
  | _ => false

namespace Lowering

open Ir

/-- A variable that the function being lowered can reach: one of its own, or one at top level that is
in a global. -/
def State.Reaches (s : State) (b : Binding) : Prop :=
  ∃ name, s.locals.lookup name = some b ∨
    s.globals.lookup name = some b ∧ b.isModuleLevel = true

/-- The address of a boxed record in the code of the function being lowered: of one in the frame, or
loaded from the slot of a boxed variable, or loaded from where such an address is stored. -/
inductive State.RecordAddress (s : State) : Value → Prop where
  | frame {r : Reg} (h : .alloca r (.named recordTypeName) ∈ s.builder.func.instrs) :
      RecordAddress s (.reg r .ptr)
  | loaded {r : Reg} {b : Binding} (reaches : s.Reaches b) (tracked : b.storage.isTracked = true)
      (h : .load r .ptr b.slot ∈ s.builder.func.instrs) : RecordAddress s (.reg r .ptr)
  | reloaded {r : Reg} {v slot : Value} (address : RecordAddress s v)
      (stored : .store v slot ∈ s.builder.func.instrs)
      (h : .load r .ptr slot ∈ s.builder.func.instrs) : RecordAddress s (.reg r .ptr)

namespace Access

variable {A : Access} {naming : Naming} {f : Func} {v : Value} {i : Instr}

/-- The address of a stack slot is not that of a boxed record. -/
theorem Keeps.not_confined_slot (hA : A.Keeps naming f) {name : String} {storage : StorageClass}
    {slot : Value} (hown : A.own name storage slot) : ¬ A.Confined slot := by
  rintro ⟨-, hscope, hrecord⟩
  rcases hA.slots name storage slot hown with ⟨r, rfl, hslot⟩ | ⟨htop, -⟩
  · rcases hrecord with ⟨r', heq, hreserved⟩ | ⟨_, _, _, _, dst, heq, hload⟩
    · obtain rfl : r = r' := by simpa [Value.reg] using heq
      have hsame := hA.once _ hslot _ (hA.code ▸ hreserved) r rfl rfl
      exact slotType_ne_record storage (Instr.alloca.inj hsame).2
    · obtain rfl : r = dst := by simpa [Value.reg] using heq
      have hsame := hA.once _ hslot _ (hA.code ▸ hload) r rfl rfl
      simp at hsame
  · simp [hscope] at htop

theorem Keeps.not_confined_field (hA : A.Keeps naming f) {r : Reg} {element : Ty} {base index : Value}
    (hfield : .gep r element base index ∈ A.code) : ¬ A.Confined (.reg r .ptr) :=
  not_confined_of_mem (hA.code ▸ hA.once) hfield rfl (by simp) (by simp)

theorem Keeps.not_confined_cell (hA : A.Keeps naming f) {storage : StorageClass} {slot : Value}
    (hcell : A.Cell storage slot) : ¬ A.Confined slot := by
  cases hcell with
  | own hown => exact hA.not_confined_slot hown
  | outer houter =>
    rw [(hA.outer _ _ houter).2]
    exact not_confined_of_reg? rfl

/-- A store that has the address of a boxed record as an operand stores it in the slot of a boxed
variable. -/
theorem Keeps.store_confined (hA : A.Keeps naming f) {value ptr : Value}
    (hi : .store value ptr ∈ f.instrs) (hv : v ∈ [value, ptr]) (hrecord : A.Confined v) :
    v = value ∧ ∃ name storage, A.own name storage ptr ∧ storage.isTracked = true := by
  have hne : ∀ {w}, ¬ A.Confined w → v ≠ w := fun hw heq => hw (heq ▸ hrecord)
  rcases hA.prepares_or_allows hi with hprepares | ⟨above, hallows⟩
  · cases hprepares with
    | null own =>
      have hnull : v ≠ .null := hne (not_confined_of_reg? rfl)
      have hslot := hne (hA.not_confined_slot own)
      simp [hnull, hslot] at hv
  cases hallows with
  | compute h => simp [Instr.isComputation] at h
  | terminate h => simp [Instr.isTerminator] at h
  | storeField field loose =>
    have hvalue := hne loose
    have hfield := hne (hA.not_confined_field field)
    simp [hvalue, hfield] at hv
  | storePlain own plain loose =>
    have hvalue := hne loose
    have hslot := hne (hA.not_confined_slot own)
    simp [hvalue, hslot] at hv
  | @storeBox name storage _ _ own tracked =>
    have hslot := hne (hA.not_confined_slot own)
    exact ⟨by simpa [hslot] using hv, name, storage, own, tracked⟩
  | storeTop value top => simp [hrecord.2.1] at top

theorem Keeps.mayUse (hA : A.Keeps naming f) (hi : i ∈ f.instrs) (hv : v ∈ i.operands)
    (hrecord : A.Confined v) : f.MayUse v i := by
  have hne : ∀ {w}, ¬ A.Confined w → v ≠ w := fun hw heq => hw (heq ▸ hrecord)
  have hsecond : ∀ {w x}, ¬ A.Confined x → v ∈ [w, x] → v = w ∧ v ∉ [x] := by
    intro w x hx hmem
    have hvx := hne hx
    simpa [hvx] using hmem
  have hstore : ∀ {value ptr}, .store value ptr ∈ f.instrs → v ∈ [value, ptr] →
      f.MayUse v (.store value ptr) := by
    intro value ptr hi hv
    obtain ⟨rfl, name, storage, hown, htracked⟩ := hA.store_confined hi hv hrecord
    -- The slots of a function are in its frame, and those of boxed variables are for addresses.
    rcases hA.slots _ _ _ hown with ⟨r, rfl, hslot⟩ | ⟨htop, -⟩
    · rw [slotType_of_isTracked htracked] at hslot
      exact .keep hslot
    · simp [hrecord.2.1] at htop
  rcases hA.prepares_or_allows hi with hprepares | ⟨above, hallows⟩
  · cases hprepares with
    | alloca => simp [Instr.operands] at hv
    | null => exact hstore hi hv
  cases hallows with
  | compute h loose | terminate h loose => exact absurd hrecord (loose v hv)
  | compareNull dst pred w =>
    obtain ⟨rfl, -⟩ := hsecond (not_confined_of_reg? rfl) hv
    exact .compare dst pred
  | load cell => exact absurd (List.mem_singleton.mp hv) (hne (hA.not_confined_cell cell))
  | loadExternal | loadTop =>
    exact absurd (List.mem_singleton.mp hv) (hne (not_confined_of_reg? rfl))
  | loadField dst ty field =>
    exact absurd (List.mem_singleton.mp hv) (hne (hA.not_confined_field field))
  | storeField | storePlain | storeBox | storeTop => exact hstore hi hv
  | fill reserved loose =>
    obtain ⟨rfl, honce⟩ := hsecond loose hv
    exact .pass none .void (.inl rfl) honce
  | update own tracked reads loose =>
    obtain ⟨rfl, honce⟩ := hsecond loose hv
    exact .pass none .void (.inr List.mem_cons_self) honce
  | ask dst ret h query =>
    obtain rfl := List.mem_singleton.mp hv
    exact .pass dst ret (.inr (List.mem_cons_of_mem _ query)) (by simp)
  | words dst callee h =>
    have hword : v.ty = .i64 := h v hv
    simp [hrecord.ty] at hword
  | call dst ret h loose => exact absurd hrecord (loose v hv)

theorem Fits.confined {ctx : Context} {s : State} (hfits : A.Fits ctx .unrestricted s)
    (hA : A.Keeps naming s.builder.func) (hscope : A.scope = .function) (h : s.RecordAddress v) :
    A.Confined v := by
  have hfun : s.scope = .function := hfits.scope.symm.trans hscope
  refine ⟨hfits.confines, hscope, ?_⟩
  induction h with
  | @frame r h => exact .inl ⟨r, rfl, hA.code ▸ h⟩
  | @loaded r b reaches tracked h =>
    refine .inr ⟨b.storage, b.slot, ?_, tracked, r, rfl, hA.code ▸ h⟩
    obtain ⟨name, hlocal | ⟨hglobal, hmodule⟩⟩ := reaches
    · refine .own (hfits.own name b ?_)
      rw [State.own, hfun]
      exact hlocal
    · exact .outer (hfits.outer hfun name b hglobal hmodule) (hfits.free [] name rfl (by simp)).1
  | @reloaded r v slot _ stored h ih =>
    obtain ⟨-, name, storage, hown, htracked⟩ := hA.store_confined stored (by simp)
      ⟨hfits.confines, hscope, ih⟩
    exact .inr ⟨storage, slot, .own hown, htracked, r, rfl, hA.code ▸ h⟩

end Access

/-- The entry function of a unit has no boxed record in its frame. Every other function is the body of
a function of the unit, and uses the address of a boxed record only as the record for a function of the
runtime that takes one, in a comparison with null, or to store it in a stack slot of its own. -/
theorem generate_confinesRecords {target : Target} {naming : Naming} {observed : List String}
    {statements : List Node} {u : Generated}
    (hu : generate target naming observed statements = .ok u) :
    ∀ f ∈ u.assembly.functions,
      (f.name = naming.entrySymbol ∧ ∀ r, .alloca r (.named recordTypeName) ∉ f.instrs) ∨
      ∃ q s s', LowersBody (Stage.contextOf target naming observed statements) statements q s s' ∧
        f = s'.builder.func ∧ ∀ i ∈ f.instrs, ∀ v ∈ i.operands, s'.RecordAddress v → f.MayUse v i := by
  intro f hf
  obtain ⟨s, hpending, rfl⟩ := generate_pending rfl hu
  rcases hpending.mem_functions hf with ⟨s₁, hentry, rfl⟩ | ⟨q, s₁, s₂, hbody, rfl⟩
  · obtain ⟨A, hscope, hkeeps, -⟩ := entryFunction_spec hentry
    exact .inl ⟨(entryDone hentry).name, hkeeps.notMem_of_topLevel hscope⟩
  · obtain ⟨A, hscope, hkeeps, -, hfits⟩ := hbody.spec (permits_unrestricted.keepsAll _ _)
      (by simp [Rules.unrestricted])
    refine .inr ⟨q, s₁, s₂, hbody, rfl, fun i hi v hv hrecord => hkeeps.mayUse hi hv ?_⟩
    exact hfits.confined hkeeps hscope hrecord

/-- A unit with a function whose variable gets its record in a loop. The record is shared by another
variable, asked about its history, and returned. -/
def sharing : List Node :=
  [.functionDef "f" ["n"]
      [.loop (.binary "<" (.identifier "n") (.literal (.number .one)))
        [.assignment "x" (.identifier "n"),
          .assignment "n" (.binary "+" (.identifier "n") (.literal (.number .one)))],
        .assignment "y" (.identifier "x"),
        .assignment "y" (.interrogative "why" (.identifier "y")),
        .ret (some (.identifier "y"))],
    .relation (.identifier "print") (.relation (.identifier "f") (.literal (.number .zero)))]

theorem confinesRecords_sharing :
    ∃ u, generate (.resolve none) { mode := .program } ["x"] sharing = .ok u ∧
      ∃ f ∈ u.assembly.functions, (∃ r, .alloca r (.named recordTypeName) ∈ f.instrs) ∧
        ∃ q s s', LowersBody (Stage.contextOf (.resolve none) { mode := .program } ["x"] sharing)
          sharing q s s' ∧ f = s'.builder.func ∧
            ∀ i ∈ f.instrs, ∀ v ∈ i.operands, s'.RecordAddress v → f.MayUse v i := by
  obtain ⟨u, hu, hrecord⟩ := exists_generate (.resolve none) { mode := .program } ["x"] sharing
    (fun u => u.assembly.functions.any fun f => f.instrs.any (·.isRecordSlot)) (by decide +kernel)
  obtain ⟨f, hf, hrecord⟩ := List.any_eq_true.mp hrecord
  obtain ⟨i, hi, hi'⟩ := List.any_eq_true.mp hrecord
  obtain ⟨r, rfl⟩ : ∃ r, i = .alloca r (.named recordTypeName) := by
    cases i with
    | alloca r ty => exact ⟨r, by rw [of_decide_eq_true hi']⟩
    | _ => simp [Instr.isRecordSlot] at hi'
  refine ⟨u, hu, f, hf, ⟨r, hi⟩, (generate_confinesRecords hu f hf).resolve_left fun hentry => ?_⟩
  exact hentry.2 r hi

end Lowering

end ScriptCompiler
