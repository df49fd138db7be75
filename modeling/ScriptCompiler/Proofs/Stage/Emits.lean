import ScriptCompiler.Proofs.Stage.Code

/-!
# The instructions that steps write

A step adds stack slots at the head of the function and instructions at the end of the current block
(`Extends`), and each of them is one of a few (`Emitted`). What holds of an instruction when it is
written, and is not undone by later steps, holds of all the code of a function in the end
(`Steps.forall_code`, `Completes.forall_instrs`).
-/

namespace ScriptCompiler.Lowering

open Ir List

namespace Stage

/-- Slots are added at the head and code at the end of the current block, which the code may end. -/
structure Extends (slots code : List Instr) (g g' : Stage) : Prop where
  head : g'.head = g.head ++ slots
  body : (g'.done = g.done ∧ g'.instrs = g.instrs ++ code) ∨
    (g'.done = g.done ++ [⟨g.label, g.instrs ++ code⟩] ∧ g'.instrs = [])

/-- What an instruction is that a step from `g` to `g'` writes. -/
inductive Emitted (ctx : Context) (P : Lexicon) (g g' : Stage) : Instr → Prop where
  /-- It reads what is in scope, and what it accesses or calls is known. -/
  | admitted {i : Instr} (admits : g.Admits ctx P i) : Emitted ctx P g g' i
  | converted (dst : Reg) (op : CastOp) (v : Value) (ty : Ty) :
      Emitted ctx P g g' (.cast dst op v ty)
  | slot {dst : Reg} {ty : Ty} (mem : .alloca dst ty ∈ g'.head)
      (costs : ty = .named recordTypeName → P.Costs) :
      Emitted ctx P g g' (.alloca dst ty)
  /-- A slot starts as null. -/
  | cleared {dst : Reg} (mem : .alloca dst .ptr ∈ g'.head) :
      Emitted ctx P g g' (.store .null (.reg dst .ptr))
  /-- Memory is reserved. -/
  | reserved {e : Catalog.Entry} {destroy : String} {args : List Value} (dst : Reg)
      (mem : e ∈ Catalog.catalog) (owner : (e.name, destroy) ∈ Catalog.owners)
      (types : args.map (·.ty) = e.params.map (·.lower ctx.target)) (costs : P.Costs) :
      Emitted ctx P g g' (.call (some dst) .ptr e.name args)
  /-- Its address is noted. -/
  | noted {d : Global} (dst : Reg) (mem : d ∈ g'.globals) (ty : d.ty = .ptr) (costs : P.Costs) :
      Emitted ctx P g g' (.store (.reg dst .ptr) (.global d.name))
  /-- A noted address is loaded, and freed. -/
  | reloaded {entry : Cleanup} (dst : Reg) (mem : entry ∈ g.state.cleanup) :
      Emitted ctx P g g' (.load dst .ptr (.global entry.slot))
  | released {entry : Cleanup} (r : Reg) (mem : entry ∈ g.state.cleanup) :
      Emitted ctx P g g' (.call none .void entry.destroy [.reg r .ptr])
  /-- A block is ended. -/
  | ended {t : Instr} (terminator : t.isTerminator = true) : Emitted ctx P g g' t

section

variable {ctx : Context} {P : Lexicon} {g g' start : Stage} {slots code : List Instr}

theorem Extends.bodyCode (h : Extends slots code g g') : g'.bodyCode = g.bodyCode ++ code := by
  rcases h.body with ⟨hdone, hinstrs⟩ | ⟨hdone, hinstrs⟩
  · simp [Stage.bodyCode, Stage.body, hdone, hinstrs]
  · simp [Stage.bodyCode, Stage.body, hdone, hinstrs]

theorem Extends.forall_code {p : Instr → Prop} (he : Extends slots code g g')
    (h : ∀ i ∈ g.code, p i) (hnew : ∀ i ∈ slots ++ code, p i) : ∀ i ∈ g'.code, p i := by
  rw [Stage.code, forall_mem_append] at h
  rw [forall_mem_append] at hnew
  rw [Stage.code, he.head, he.bodyCode]
  exact forall_mem_append.mpr ⟨forall_mem_append.mpr ⟨h.1, hnew.1⟩,
    forall_mem_append.mpr ⟨h.2, hnew.2⟩⟩

theorem Extends.subset_code (h : Extends slots code g g') : g.code ⊆ g'.code := by
  intro i hi
  rw [Stage.code, h.head, h.bodyCode]
  rcases mem_append.mp hi with hi | hi
  · exact mem_append_left _ (mem_append_left _ hi)
  · exact mem_append_right _ (mem_append_left _ hi)

/-- What a move writes. -/
theorem Move.emits (h : Move ctx P g g') :
    ∃ slots code, Extends slots code g g' ∧ ∀ i ∈ slots ++ code, Emitted ctx P g g' i := by
  have hnil : g'.head = g.head → g'.done = g.done → g'.instrs = g.instrs →
      ∃ slots code, Extends slots code g g' ∧ ∀ i ∈ slots ++ code, Emitted ctx P g g' i :=
    fun hhead hdone hinstrs =>
      ⟨[], [], ⟨by simp [hhead], .inl (by simp [hdone, hinstrs])⟩, by simp⟩
  have hcode : ∀ code, g'.head = g.head → g'.done = g.done → g'.instrs = g.instrs ++ code →
      (∀ i ∈ code, Emitted ctx P g g' i) →
      ∃ slots code, Extends slots code g g' ∧ ∀ i ∈ slots ++ code, Emitted ctx P g g' i :=
    fun code hhead hdone hinstrs h =>
      ⟨[], code, ⟨by simp [hhead], .inl ⟨hdone, hinstrs⟩⟩, by simpa using h⟩
  cases h with
  | define i dst admits => exact hcode [i] rfl rfl rfl (by simpa using .admitted admits)
  | convert op v target has fits =>
    exact hcode _ rfl rfl rfl (by simpa using .converted _ op v target)
  | effect i dst inner admits => exact hcode [i] rfl rfl rfl (by simpa using .admitted admits)
  | slot ty costs =>
    refine ⟨[.alloca g.next ty], [], ⟨rfl, .inl ⟨rfl, (append_nil _).symm⟩⟩, ?_⟩
    simpa using .slot (mem_append_right _ mem_cons_self) costs
  | nullSlot =>
    refine ⟨[.alloca g.next .ptr, .store .null (.reg g.next .ptr)], [],
      ⟨rfl, .inl ⟨rfl, (append_nil _).symm⟩⟩, ?_⟩
    have hmem : .alloca g.next .ptr ∈ (g.nullSlot .ptr).head :=
      mem_append_right _ mem_cons_self
    simpa using ⟨.slot hmem nofun, .cleared hmem⟩
  | allocate e destroy args mem owner has types _ costs =>
    exact hcode _ rfl rfl rfl (by simpa using .reserved _ mem owner types costs)
  | reserve e destroy args mem owner has types _ costs =>
    refine hcode _ rfl rfl (append_assoc _ _ _) ?_
    have hnoted : (⟨g.cleanupSlot, .ptr, .hidden, some .null, false⟩ : Global) ∈
        (g.reserve e.name args destroy).globals := mem_append_right _ mem_cons_self
    simpa using ⟨.reserved _ mem owner types costs, .noted _ hnoted rfl costs⟩
  | release entry mem =>
    refine hcode _ rfl rfl (append_assoc _ _ _) ?_
    simpa using ⟨.reloaded _ mem, .released _ mem⟩
  | constant | storage | exported | useVariable | useFunction | note => exact hnil rfl rfl rfl
  | bind name b => exact hnil rfl rfl rfl

theorem Step.emits (h : Step ctx P g g') :
    ∃ slots code, Extends slots code g g' ∧ ∀ i ∈ slots ++ code, Emitted ctx P g g' i := by
  cases h with
  | move h => exact h.emits
  | @jump t label live reserved h =>
    refine ⟨[], [t], ⟨(append_nil _).symm, .inr ⟨rfl, rfl⟩⟩, ?_⟩
    simpa using .ended h.terminator
  | label | enterLoop | leaveLoop =>
    exact ⟨[], [], ⟨by simp [withLabel, withLoop, withoutLoop],
      .inl (by simp [withLabel, withLoop, withoutLoop])⟩, by simp⟩

theorem Steps.forall_code {p : Stage → Instr → Prop}
    (hkeep : ∀ {g g' i}, Steps ctx P start g → Step ctx P g g' → p g i → p g' i)
    (hnew : ∀ {g g' i}, Steps ctx P start g → Step ctx P g g' → Emitted ctx P g g' i → p g' i)
    (hstart : start.Fresh) (h : Steps ctx P start g) : ∀ i ∈ g.code, p g i := by
  induction h with
  | refl => simp [Stage.code, bodyCode, body, hstart.head, hstart.done, hstart.instrs]
  | tail hsteps hstep ih =>
    obtain ⟨slots, code, hextends, hemitted⟩ := hstep.emits
    exact hextends.forall_code (fun i hi => hkeep hsteps hstep (ih i hi))
      fun i hi => hnew hsteps hstep (hemitted i hi)

theorem Completes.forall_instrs {t : Instr} {p : Instr → Prop} (h : Completes ctx P start g t)
    (hcode : ∀ i ∈ g.code, p i) (hret : ∀ v, p (.ret v)) : ∀ i ∈ (g.complete t).instrs, p i := by
  obtain ⟨v, rfl⟩ := h.returns
  rw [h.instrs]
  have hextends : Extends [] [.ret v] g (g.effect (.ret v)) :=
    ⟨(append_nil _).symm, .inl ⟨rfl, rfl⟩⟩
  exact hextends.forall_code hcode (by simpa using hret v)

end

end Stage

end ScriptCompiler.Lowering
