import Mathlib.Data.List.Nodup
import Mathlib.Data.List.Pairwise
import ScriptCompiler.Proofs.ControlFlow

/-!
# Generated functions are in single-assignment form

Each register is defined once, every operand has the type of its definition, and in every block that
control can reach, the definition of a register dominates its uses in the control flow graph. The
last is more than the order of the text, which is all that a check looks at.

Dominance is proved from a *promise*: for every block some registers that it may read, such that
every block that leads to it knows them at its end (`Func.Promises`). Along a path from the entry
block a promised register has then been defined, and since only one block defines it, that block is
on every path.
-/

namespace ScriptCompiler

open List

namespace Ir

namespace Func

/-- Control may go from block `a` to block `b`. -/
def Edge (f : Func) (a b : String) : Prop :=
  ∃ block ∈ f.blocks, block.label = a ∧ ∃ i ∈ block.instrs, b ∈ i.successors

/-- A path from the entry block to a block, with the blocks that it visits before. -/
inductive Path (f : Func) : List String → String → Prop where
  | entry {l : String} (h : f.labels.head? = some l) : Path f [] l
  | step {before : List String} {a b : String} (h : Path f before a) (edge : f.Edge a b) :
      Path f (before ++ [a]) b

/-- Control can reach a block. -/
def Reachable (f : Func) (l : String) : Prop := ∃ before, f.Path before l

/-- Every path to block `l` visits block `d`. -/
def Dominates (f : Func) (d l : String) : Prop := ∀ before, f.Path before l → d ∈ before ++ [l]

/-- A function in typed single-assignment form. -/
structure IsSsa (f : Func) : Prop where
  /-- Registers are defined once, as a parameter or by an instruction. -/
  distinct : (f.paramRegs ++ f.instrs.filterMap Instr.dst?).Nodup
  /-- An operand has the type that its parameter or its definition has. -/
  types : ∀ i ∈ f.instrs, ∀ v ∈ i.operands, ∀ r, v.op = .reg r →
    (r, v.ty) ∈ f.params ∨ ∃ j ∈ f.instrs, j.dst? = some r ∧ j.resultType? = some v.ty
  /-- A register that is read where control can be is a parameter, or is defined above in the same
  block, or in another block that every path to this one visits. -/
  dominated : ∀ b ∈ f.blocks, f.Reachable b.label → ∀ above i below,
    b.instrs = above ++ i :: below → ∀ v ∈ i.operands, ∀ r, v.op = .reg r →
      r ∈ f.paramRegs ∨ r ∈ above.filterMap Instr.dst? ∨
        ∃ d ∈ f.blocks, r ∈ d.instrs.filterMap Instr.dst? ∧ d.label ≠ b.label ∧
          f.Dominates d.label b.label

/-- Every block may read the registers that it is promised besides the parameters and its own, and
they are known at the end of every block that leads to it. -/
structure Promises (f : Func) (promised : String → Typing) : Prop where
  blocks : ∀ b ∈ f.blocks, Scoped (f.params ++ promised b.label) b.instrs
  edges : ∀ b ∈ f.blocks, ∀ i ∈ b.instrs, ∀ l ∈ i.successors,
    promised l ⊆ f.params ++ promised b.label ++ typing b.instrs
  entry : ∀ l, f.labels.head? = some l → promised l = []

end Func

/-! ## Registers by their definitions -/

theorem mem_typing {instrs : List Instr} {r : Reg} {ty : Ty} (h : (r, ty) ∈ typing instrs) :
    ∃ i ∈ instrs, i.dst? = some r ∧ i.resultType? = some ty := by
  obtain ⟨i, hi, hdef⟩ := mem_filterMap.mp h
  obtain ⟨r', hr', hty⟩ := Option.bind_eq_some_iff.mp hdef
  obtain ⟨ty', hty', heq⟩ := Option.map_eq_some_iff.mp hty
  obtain ⟨rfl, rfl⟩ := Prod.mk.inj heq
  exact ⟨i, hi, hr', hty'⟩

theorem mem_registers_of_mem_typing {instrs : List Instr} {p : Reg × Ty} (h : p ∈ typing instrs) :
    p.1 ∈ registers instrs := by
  rw [← map_fst_typing]
  exact mem_map_of_mem h

theorem Scoped.at {known : Typing} {above below : List Instr} {i : Instr}
    (h : Scoped known (above ++ i :: below)) : ∀ v ∈ i.operands, v.RegIn (known ++ typing above) :=
  (scoped_append.mp h).2.1

theorem block_eq_of_mem_registers {f : Func} (h : (registers f.instrs).Nodup) {b d : Block}
    (hb : b ∈ f.blocks) (hd : d ∈ f.blocks) {r : Reg} (hrb : r ∈ registers b.instrs)
    (hrd : r ∈ registers d.instrs) : b = d := by
  have hflat : registers f.instrs = f.blocks.flatMap fun b => registers b.instrs := by
    simp [registers, Func.instrs, filterMap_flatMap]
  rw [hflat, nodup_flatMap] at h
  by_contra hne
  have hsymm : Std.Symm (Function.onFun List.Disjoint fun b : Block => registers b.instrs) :=
    ⟨fun _ _ hxy _ ha hb => hxy hb ha⟩
  exact h.2.forall hb hd hne hrb hrd

/-! ## Paths -/

/-- A block that is visited can be reached without visiting it before. -/
theorem Func.Path.exists_first {f : Func} {before : List String} {l : String}
    (h : f.Path before l) : ∀ x ∈ before ++ [l], ∃ before', f.Path before' x ∧ x ∉ before' := by
  induction h with
  | entry hl =>
    intro x hx
    obtain rfl := mem_singleton.mp hx
    exact ⟨[], .entry hl, by simp⟩
  | @step before a b h edge ih =>
    intro x hx
    by_cases hmem : x ∈ before ++ [a]
    · exact ih x hmem
    · obtain rfl := mem_singleton.mp ((mem_append.mp hx).resolve_left hmem)
      exact ⟨_, .step h edge, hmem⟩

/-- A promised register was defined on the way. -/
theorem Func.Promises.defined {f : Func} {promised : String → Typing} (h : f.Promises promised)
    {before : List String} {l : String} (hpath : f.Path before l) :
    ∀ p ∈ promised l, p ∈ f.params ∨
      ∃ d ∈ f.blocks, d.label ∈ before ∧ p ∈ typing d.instrs := by
  induction hpath with
  | entry hl =>
    intro p hp
    rw [h.entry _ hl] at hp
    simp at hp
  | @step before a b _ edge ih =>
    obtain ⟨block, hblock, rfl, i, hi, hl⟩ := edge
    intro p hp
    rcases mem_append.mp (h.edges block hblock i hi b hl hp) with hp | hp
    · rcases mem_append.mp hp with hp | hp
      · exact .inl hp
      · rcases ih p hp with hp | ⟨d, hd, hmem, hdef⟩
        · exact .inl hp
        · exact .inr ⟨d, hd, mem_append_left _ hmem, hdef⟩
    · exact .inr ⟨block, hblock, by simp, hp⟩

theorem Func.Promises.isSsa {f : Func} {promised : String → Typing} (h : f.Promises promised)
    (hdistinct : (f.paramRegs ++ registers f.instrs).Nodup)
    (horder : Scoped f.params f.instrs) : f.IsSsa where
  distinct := hdistinct
  types := by
    intro i hi v hv r hr
    obtain ⟨above, below, hsplit⟩ := append_of_mem hi
    rw [hsplit] at horder
    rcases mem_append.mp (horder.at v hv r hr) with hp | hp
    · exact .inl hp
    · obtain ⟨j, hj, hdef⟩ := mem_typing hp
      refine .inr ⟨j, ?_, hdef⟩
      rw [hsplit]
      exact mem_append_left _ hj
  dominated := by
    intro b hb ⟨before, hpath⟩ above i below hinstrs v hv r hr
    have hscoped := h.blocks b hb
    rw [hinstrs] at hscoped
    rcases mem_append.mp (hscoped.at v hv r hr) with hp | hp
    · rcases mem_append.mp hp with hp | hp
      · exact .inl (mem_map.mpr ⟨_, hp, rfl⟩)
      · -- The first visit of this block tells which block defines the register.
        obtain ⟨first, hfirst, hnot⟩ := hpath.exists_first b.label (by simp)
        rcases h.defined hfirst _ hp with hp' | ⟨d, hd, hmem, hdef⟩
        · exact .inl (mem_map.mpr ⟨_, hp', rfl⟩)
        · have hrd := mem_registers_of_mem_typing hdef
          refine .inr (.inr ⟨d, hd, hrd, fun heq => hnot (heq ▸ hmem), fun before' hpath' => ?_⟩)
          obtain ⟨-, hregs, hapart⟩ := nodup_append.mp hdistinct
          rcases h.defined hpath' _ hp with hp' | ⟨d', hd', hmem', hdef'⟩
          · -- A parameter is not defined again.
            have hrf : r ∈ registers f.instrs := by
              obtain ⟨j, hj, hdst⟩ := mem_filterMap.mp hrd
              exact mem_filterMap.mpr ⟨j, mem_flatMap.mpr ⟨d, hd, hj⟩, hdst⟩
            exact absurd rfl (hapart r (mem_map.mpr ⟨_, hp', rfl⟩) r hrf)
          · rw [block_eq_of_mem_registers hregs hd hd' hrd (mem_registers_of_mem_typing hdef')]
            exact mem_append_left _ hmem'
    · exact .inr (.inl (mem_registers_of_mem_typing hp))

end Ir

namespace Lowering

open Ir

/-- The promise of a stage: the stack slots, and what `live` says. -/
def Stage.promised (g : Stage) (l : String) : Typing :=
  if l = "entry" then [] else typing g.head ++ g.live l

namespace Stage.Completes

variable {ctx : Context} {P : Lexicon} {start g : Stage} {t : Instr}

theorem body_eq (h : Completes ctx P start g t) : ∃ b rest, (g.effect t).body = b :: rest ∧
    b.label = "entry" ∧ ∀ c ∈ rest, c.label ≠ "entry" := by
  have hfirst := h.shaped.first
  have hdistinct := h.shaped.distinct
  unfold Stage.labels at hfirst hdistinct
  cases hbody : (g.effect t).body with
  | nil => simp [hbody] at hfirst
  | cons b rest =>
    rw [hbody] at hfirst hdistinct
    have hb : b.label = "entry" := by simpa using hfirst
    refine ⟨b, rest, rfl, hb, fun c hc heq => ?_⟩
    refine (nodup_cons.mp hdistinct).1 (mem_map.mpr ⟨c, hc, heq.trans hb.symm⟩)

theorem scoped_block (h : Completes ctx P start g t) {b : Block} (hb : b ∈ (g.complete t).blocks) :
    Scoped ((g.complete t).params ++ (g.effect t).promised b.label) b.instrs ∧
      ∀ i ∈ b.instrs, ∀ l ∈ i.successors, typing g.head ++ g.live l ⊆
        (g.complete t).params ++ (g.effect t).promised b.label ++ typing b.instrs := by
  obtain ⟨first, rest, hbody, hfirst, hrest⟩ := h.body_eq
  have hw := h.written
  have hframe : (g.effect t).frame = (g.complete t).params ++ typing g.head := rfl
  rw [h.blocks, hbody] at hb
  rcases mem_cons.mp hb with rfl | hb
  · have hmem : first ∈ (g.effect t).body := by simp [hbody]
    have hcode := hw.blocks first hmem
    have hedges := hw.edges first hmem
    rw [hfirst, hw.first, append_nil, hframe] at hcode hedges
    have hpromised : (g.effect t).promised first.label = [] := if_pos hfirst
    rw [hpromised, append_nil]
    refine ⟨scoped_append.mpr ⟨hw.slots.mono (nil_subset _), hcode⟩, fun i hi l hl => ?_⟩
    rcases mem_append.mp hi with hi | hi
    · -- The head of the entry block leads nowhere.
      rw [successors_of_inner (h.sound.inner i (mem_append_left _ hi))] at hl
      simp at hl
    · rw [typing_append, ← append_assoc]
      refine append_subset.mpr ⟨?_, hedges i hi l hl⟩
      exact subset_append_of_subset_left _ (subset_append_right _ _)
  · have hmem : b ∈ (g.effect t).body := by simp [hbody, hb]
    have hpromised : (g.effect t).promised b.label = typing g.head ++ g.live b.label :=
      if_neg (hrest b hb)
    rw [hpromised, ← append_assoc]
    refine ⟨hw.blocks b hmem, fun i hi l hl => ?_⟩
    refine append_subset.mpr ⟨?_, hw.edges b hmem i hi l hl⟩
    exact subset_append_of_subset_left _
      (subset_append_of_subset_left _ (subset_append_right _ _))

theorem promises (h : Completes ctx P start g t) :
    (g.complete t).Promises (g.effect t).promised where
  blocks := fun b hb => (h.scoped_block hb).1
  edges := by
    intro b hb i hi l hl
    have hne : l ≠ "entry" := fun heq => h.wellFormed.noReentry (heq ▸
      mem_flatMap.mpr ⟨i, mem_flatMap.mpr ⟨b, hb, hi⟩, hl⟩)
    have hpromised : (g.effect t).promised l = typing g.head ++ g.live l := if_neg hne
    rw [hpromised]
    exact (h.scoped_block hb).2 i hi l hl
  entry := by
    intro l hl
    rw [h.wellFormed.first] at hl
    exact if_pos (Option.some.inj hl).symm

end Stage.Completes

/-- Every function of a unit that is generated is in typed single-assignment form. -/
theorem generate_isSsa {target : Target} {naming : Naming} {observed : List String}
    {statements : List Node} {u : Generated}
    (hu : generate target naming observed statements = .ok u) :
    ∀ f ∈ u.assembly.functions, f.IsSsa := by
  intro f hf
  obtain ⟨start, g, t, h, rfl, -⟩ := (Stage.generate_functions hu).2 f hf
  refine h.promises.isSsa ?_ h.scoped_instrs
  rw [h.instrs]
  refine nodup_append.mpr ⟨h.written.params.1, h.written.distinct, fun a ha b hb heq => ?_⟩
  exact (h.written.bounds b hb).1 (heq ▸ ha)

theorem isSsa_counting :
    ∃ u, generate (.resolve none) { mode := .program } ["x"] counting = .ok u ∧
      ∀ f ∈ u.assembly.functions, f.IsSsa := by
  obtain ⟨u, hu⟩ := exists_generate_counting
  exact ⟨u, hu, generate_isSsa hu⟩

end Lowering

end ScriptCompiler
