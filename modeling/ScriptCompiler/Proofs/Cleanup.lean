import Mathlib.Data.List.Forall2
import ScriptCompiler.Proofs.ControlFlow
import ScriptCompiler.Proofs.Stage.Emits
import ScriptCompiler.Proofs.Symbols

/-!
# A program frees what it reserves

The entry function of a program notes the address of all the memory that it reserves and that has to
be freed, each in a global of its own, and frees it in its last block. `FreesAll` says what this
means for the text of the assembly, and `generate_freesAll` that it holds of every program that is
generated.

The argument is an invariant of steps. What a step writes either has nothing to do with such memory,
or is a call that reserves memory together with the instruction that notes its address, or frees
memory in the last block of a program (`Step.changes`). As long as the last block is not begun, the
calls that reserve memory are noted one by one, and nothing is loaded or freed (`Noted`). Functions
other than the entry function note nothing (`Harmless`). The last block is known exactly.
-/

namespace ScriptCompiler

open List

namespace Ir

/-- The instruction returns. -/
def Instr.isReturn : Instr → Bool
  | .ret _ => true
  | _ => false

/-- The calls that reserve memory, each with the instruction behind it. -/
def allocations : List Instr → List (Instr × Option Instr)
  | [] => []
  | i :: rest => if i.allocates then (i, rest.head?) :: allocations rest else allocations rest

/-- The calls of a function that reserve memory, each with the instruction behind it in its block. -/
def Func.allocations (f : Func) : List (Instr × Option Instr) :=
  f.blocks.flatMap fun b => Ir.allocations b.instrs

/-- All instructions of an assembly in the order of the text. -/
def Assembly.instrs (a : Assembly) : List Instr := a.functions.flatMap Func.instrs

theorem allocations_append {a b : List Instr}
    (h : ∀ i, a.getLast? = some i → i.allocates = false) :
    allocations (a ++ b) = allocations a ++ allocations b := by
  induction a with
  | nil => rfl
  | cons i a ih =>
    cases a with
    | nil =>
      have hi : i.allocates = false := h i rfl
      simp [allocations, hi]
    | cons j a =>
      have hrest := ih fun k hk => h k (by rwa [List.getLast?_cons_cons])
      rw [cons_append, allocations, allocations, hrest]
      split_ifs <;> rfl

theorem allocations_eq_nil {code : List Instr} (h : ∀ i ∈ code, i.allocates = false) :
    allocations code = [] := by
  induction code with
  | nil => rfl
  | cons i code ih =>
    rw [allocations, if_neg (by simp [h i mem_cons_self])]
    exact ih fun j hj => h j (mem_cons_of_mem _ hj)

end Ir

namespace Lowering

open Ir

/-- Noted addresses are loaded one after the other, from the register `r` on, and freed. -/
def freeing (r : Reg) : List Cleanup → List Instr
  | [] => []
  | e :: rest =>
    .load r .ptr (.global e.slot) :: .call none .void e.destroy [.reg r .ptr] ::
      freeing (r + 1) rest

/-- A call reserves memory, and what follows it notes the address, to be freed by the function that
belongs to it. -/
def Notes (p : Instr × Option Instr) (e : Cleanup) : Prop :=
  ∃ dst callee args, (callee, e.destroy) ∈ Catalog.owners ∧
    p = (.call (some dst) .ptr callee args, some (.store (.reg dst .ptr) (.global e.slot)))

/-- The function `main` of an assembly frees what it reserves. -/
structure FreesAll (a : Assembly) (main : Func) (cleanup : List Cleanup) : Prop where
  /-- The calls that reserve memory are noted, in the order of the text. -/
  noted : List.Forall₂ Notes main.allocations cleanup
  /-- Each address has a symbol of its own. -/
  slots : cleanup.map (·.slot) = (List.range cleanup.length).map cleanupSymbol
  /-- One global has this symbol. It is private and null at first. -/
  globals : ∀ e ∈ cleanup, a.globals.filter (·.name = e.slot) =
    [{ name := e.slot, ty := .ptr, visibility := .hidden, init := some .null }]
  /-- It is written in one place and read in one place. -/
  stored : ∀ e ∈ cleanup, a.instrs.countP (·.storesTo e.slot) = 1
  loaded : ∀ e ∈ cleanup, a.instrs.countP (·.loadsFrom e.slot) = 1
  /-- The last block reads the addresses, frees them and returns. -/
  exit : ∃ r, main.block? exitLabel =
    some ⟨exitLabel, freeing r cleanup ++ [.ret (some (.int .i32 0))]⟩
  returns : main.instrs.countP Instr.isReturn = 1
  /-- Nothing is freed anywhere else. -/
  freed : (a.functions.flatMap Func.calls).filter (· ∈ Catalog.releasing) =
    cleanup.map (·.destroy)

namespace Stage

/-- What the code that a step writes has to do with memory that has to be freed. -/
inductive Changes (ctx : Context) (g g' : Stage) : List Instr → List Instr → Prop where
  /-- Nothing. Only what is no entry function of a program returns here. -/
  | spares {slots code : List Instr} (spares : ∀ i ∈ slots ++ code, Spares i)
      (returns : ∀ i ∈ slots ++ code, i.isReturn → ¬ Tracks ctx g.state)
      (cleanup : g'.state.cleanup = g.state.cleanup) : Changes ctx g g' slots code
  /-- Memory is reserved where its address is not noted. -/
  | allocates {dst : Option Reg} {ret : Ty} {callee : String} {args : List Value}
      (owner : callee ∈ Catalog.owners.map (·.1)) (untracked : ¬ Tracks ctx g.state)
      (cleanup : g'.state.cleanup = g.state.cleanup) :
      Changes ctx g g' [] [.call dst ret callee args]
  /-- Memory is reserved and its address is noted. -/
  | reserves {dst : Reg} {callee destroy : String} {args : List Value}
      (owner : (callee, destroy) ∈ Catalog.owners) (tracked : Tracks ctx g.state)
      (cleanup : g'.state.cleanup =
        g.state.cleanup ++ [⟨cleanupSymbol g.state.cleanup.length, destroy⟩]) :
      Changes ctx g g' [] [.call (some dst) .ptr callee args,
        .store (.reg dst .ptr) (.global (cleanupSymbol g.state.cleanup.length))]
  /-- Memory is freed. -/
  | releases {code : List Instr} (last : g.label = exitLabel) (tracked : Tracks ctx g.state) :
      Changes ctx g g' [] code

section

variable {ctx : Context} {g g' : Stage} {slots code : List Instr}

/-! ## What a step writes -/

theorem spares_of_plain {i : Instr} (hstore : ∀ symbol, i.storesTo symbol = false)
    (hload : ∀ symbol, i.loadsFrom symbol = false) (hcall : i.callee? = none) : Spares i :=
  spares_of_callee (fun _ => hstore _) (fun _ => hload _) (by simp [hcall])

theorem Move.changes (hprogram : ctx.naming.mode = .program) (hs : Tidy g.state)
    (hg : g.Sound ctx (.of Dotless)) (h : Move ctx (.of Dotless) g g') :
    ∃ slots code, Extends slots code g g' ∧ Changes ctx g g' slots code := by
  have hnil : g'.head = g.head → g'.done = g.done → g'.instrs = g.instrs →
      g'.state.cleanup = g.state.cleanup →
      ∃ slots code, Extends slots code g g' ∧ Changes ctx g g' slots code :=
    fun hhead hdone hinstrs hcleanup => ⟨[], [], ⟨by simp [hhead], .inl (by simp [hdone, hinstrs])⟩,
      .spares (by simp) (by simp) hcleanup⟩
  have hone : ∀ i : Instr, g'.head = g.head → g'.done = g.done → g'.instrs = g.instrs ++ [i] →
      g'.state.cleanup = g.state.cleanup → Spares i → i.isReturn = false →
      ∃ slots code, Extends slots code g g' ∧ Changes ctx g g' slots code :=
    fun i hhead hdone hinstrs hcleanup hi hreturn =>
      ⟨[], [i], ⟨by simp [hhead], .inl ⟨hdone, hinstrs⟩⟩,
        .spares (by simpa using hi) (by simp [hreturn]) hcleanup⟩
  cases h with
  | define i dst admits =>
    refine hone i rfl rfl rfl rfl (Admits.spares hprogram hs hg admits) ?_
    cases i <;> simp_all [Instr.isReturn, Instr.dst?]
  | convert op v target has fits =>
    exact hone _ rfl rfl rfl rfl (spares_of_plain (fun _ => rfl) (fun _ => rfl) rfl) rfl
  | effect i dst inner admits =>
    refine hone i rfl rfl rfl rfl (Admits.spares hprogram hs hg admits) ?_
    cases i <;> simp_all [Instr.isReturn, Instr.isTerminator]
  | slot ty =>
    refine ⟨[.alloca g.next ty], [], ⟨rfl, .inl ⟨rfl, (append_nil _).symm⟩⟩, ?_⟩
    refine .spares ?_ (by simp [Instr.isReturn]) rfl
    simpa using spares_of_plain (fun _ => rfl) (fun _ => rfl) rfl
  | nullSlot =>
    refine ⟨[.alloca g.next .ptr, .store .null (.reg g.next .ptr)], [],
      ⟨rfl, .inl ⟨rfl, (append_nil _).symm⟩⟩, ?_⟩
    refine .spares ?_ (by simp [Instr.isReturn]) rfl
    simp only [append_nil, forall_mem_cons, not_mem_nil, IsEmpty.forall_iff,
      implies_true, and_true]
    exact ⟨spares_of_plain (fun _ => rfl) (fun _ => rfl) rfl,
      spares_of_plain (fun _ => rfl) (fun _ => rfl) rfl⟩
  | allocate e destroy args mem owner has types untracked =>
    exact ⟨[], _, ⟨(append_nil _).symm, .inl ⟨rfl, rfl⟩⟩,
      .allocates (mem_map.mpr ⟨_, owner, rfl⟩) untracked rfl⟩
  | reserve e destroy args mem owner has types tracked =>
    exact ⟨[], _, ⟨(append_nil _).symm, .inl ⟨rfl, append_assoc _ _ _⟩⟩,
      .reserves owner tracked rfl⟩
  | release entry mem last tracked =>
    exact ⟨[], _, ⟨(append_nil _).symm, .inl ⟨rfl, append_assoc _ _ _⟩⟩,
      .releases last tracked⟩
  | constant | storage | exported | useVariable | useFunction => exact hnil rfl rfl rfl rfl
  | bind name b =>
    obtain ⟨locals, globals, heq, -⟩ := bind_eq g.state name b
    exact hnil rfl rfl rfl (by rw [heq])
  | note s same => exact hnil rfl rfl rfl same.cleanup

theorem spares_of_isTerminator {t : Instr} (ht : t.isTerminator = true) : Spares t := by
  refine spares_of_plain (fun symbol => ?_) (fun symbol => ?_) ?_
  · cases t <;> simp_all [Instr.isTerminator, Instr.storesTo]
  · cases t <;> simp_all [Instr.isTerminator, Instr.loadsFrom]
  · cases t <;> simp_all [Instr.isTerminator, Instr.callee?]

theorem Step.changes (hprogram : ctx.naming.mode = .program) (hs : Tidy g.state)
    (hg : g.Sound ctx (.of Dotless)) (h : Step ctx (.of Dotless) g g') :
    ∃ slots code, Extends slots code g g' ∧ Changes ctx g g' slots code := by
  cases h with
  | move h => exact h.changes hprogram hs hg
  | label | enterLoop | leaveLoop =>
    exact ⟨[], [], ⟨(append_nil _).symm, .inl ⟨rfl, (append_nil _).symm⟩⟩,
      .spares (by simp) (by simp) rfl⟩
  | @jump t label live reserved hj =>
    refine ⟨[], [t], ⟨(append_nil _).symm, .inr ⟨rfl, rfl⟩⟩, .spares ?_ ?_ rfl⟩
    · simpa using spares_of_isTerminator hj.terminator
    · intro i hi hreturn
      obtain rfl : i = t := by simpa using hi
      cases i with
      | ret v => exact hj.returns v rfl
      | _ => simp [Instr.isReturn] at hreturn

/-! ## Before the last block -/

/-- The calls that reserve memory, each with the instruction behind it in its block. -/
def allocations (g : Stage) : List (Instr × Option Instr) :=
  g.body.flatMap fun b => Ir.allocations b.instrs

/-- The current block does not end in a call that reserves memory. -/
def Rests (g : Stage) : Prop := ∀ i, g.instrs.getLast? = some i → i.allocates = false

theorem Extends.allocations (h : Extends slots code g g') (hrests : g.Rests) :
    g'.allocations = g.allocations ++ Ir.allocations code := by
  have happend := allocations_append (b := code) hrests
  rcases h.body with ⟨hdone, hinstrs⟩ | ⟨hdone, hinstrs⟩
  · simp [Stage.allocations, Stage.body, hdone, hinstrs, happend]
  · simp [Stage.allocations, Stage.body, hdone, hinstrs, happend, Ir.allocations]

theorem Extends.rests (h : Extends slots code g g') (hrests : g.Rests)
    (hcode : ∀ i, code.getLast? = some i → i.allocates = false) : g'.Rests := by
  intro i hi
  rcases h.body with ⟨-, hinstrs⟩ | ⟨-, hinstrs⟩
  · rw [hinstrs, List.getLast?_append, Option.or_eq_some_iff] at hi
    exact hi.elim (hcode i) fun hi => hrests i hi.2
  · simp [hinstrs] at hi

/-- Code of a program before its last block reads no noted address, frees nothing and does not
return. -/
structure Quiet (i : Instr) : Prop where
  loadsFrom : ∀ k, i.loadsFrom (cleanupSymbol k) = false
  releases : i.releases = false
  isReturn : i.isReturn = false

/-- What holds of the entry function of a program before its last block is begun. -/
structure Noted (g : Stage) : Prop where
  /-- Stack slots have nothing to do with memory that has to be freed. -/
  head : ∀ i ∈ g.head, Spares i
  /-- The memory that is reserved is noted. -/
  pairs : List.Forall₂ Notes g.allocations g.state.cleanup
  rests : g.Rests
  /-- Each address is noted once. -/
  stored : ∀ k, g.bodyCode.countP (·.storesTo (cleanupSymbol k)) =
    if k < g.state.cleanup.length then 1 else 0
  quiet : ∀ i ∈ g.code, Quiet i

theorem notMem_releasing {callee : String} (h : callee ∈ Catalog.owners.map (·.1)) :
    callee ∉ Catalog.releasing := by
  have hdisjoint : ∀ name ∈ Catalog.owners.map (·.1), name ∉ Catalog.releasing := by decide
  exact hdisjoint callee h

/-- Before the last block a step keeps all that is noted in order. -/
theorem Noted.step (h : Noted g) (hprogram : ctx.naming.mode = .program) (hs : Tidy g.state)
    (hg : g.Sound ctx (.of Dotless)) (htracks : Tracks ctx g.state) (hlabel : g.label ≠ exitLabel)
    (hstep : Step ctx (.of Dotless) g g') : Noted g' := by
  obtain ⟨slots, code, he, hchanges⟩ := hstep.changes hprogram hs hg
  cases hchanges with
  | allocates _ untracked => exact absurd htracks untracked
  | releases last => exact absurd last hlabel
  | spares hspares hreturns hcleanup =>
    have hcode : ∀ i ∈ code, Spares i := fun i hi => hspares i (mem_append_right _ hi)
    constructor
    case head =>
      rw [he.head]
      exact forall_mem_append.mpr ⟨h.head, fun i hi => hspares i (mem_append_left _ hi)⟩
    case pairs =>
      rw [he.allocations h.rests, allocations_eq_nil fun i hi => (hcode i hi).allocates, hcleanup,
        append_nil]
      exact h.pairs
    case rests =>
      exact he.rests h.rests fun i hi => (hcode i (mem_of_getLast? hi)).allocates
    case stored =>
      intro k
      have hnone : code.countP (·.storesTo (cleanupSymbol k)) = 0 :=
        countP_eq_zero.mpr fun i hi => by simp [(hcode i hi).storesTo k]
      rw [he.bodyCode, countP_append, hnone, hcleanup]
      exact h.stored k
    case quiet =>
      refine he.forall_code h.quiet fun i hi => ⟨(hspares i hi).loadsFrom, (hspares i hi).releases, ?_⟩
      exact Bool.eq_false_iff.mpr fun hreturn => hreturns i hi hreturn htracks
  | @reserves dst callee destroy args owner _ hcleanup =>
    have hmem : callee ∈ Catalog.owners.map (·.1) := mem_map.mpr ⟨_, owner, rfl⟩
    have hcall : (Instr.call (some dst) .ptr callee args).allocates = true := by
      simpa [Instr.allocates, Instr.callee?] using hmem
    constructor
    case head => rw [he.head, append_nil]; exact h.head
    case pairs =>
      -- The call is the one more that reserves memory, and the store behind it notes the address.
      have hnew : Ir.allocations [Instr.call (some dst) .ptr callee args,
          .store (.reg dst .ptr) (.global (cleanupSymbol g.state.cleanup.length))] =
          [(.call (some dst) .ptr callee args,
            some (.store (.reg dst .ptr) (.global (cleanupSymbol g.state.cleanup.length))))] := by
        rw [Ir.allocations, if_pos hcall]
        rfl
      rw [he.allocations h.rests, hnew, hcleanup]
      exact rel_append h.pairs (.cons ⟨dst, callee, args, owner, rfl⟩ .nil)
    case rests =>
      refine he.rests h.rests fun i hi => ?_
      obtain rfl := Option.some.inj hi
      rfl
    case stored =>
      intro k
      have hnew : [Instr.call (some dst) .ptr callee args,
          .store (.reg dst .ptr) (.global (cleanupSymbol g.state.cleanup.length))].countP
            (·.storesTo (cleanupSymbol k)) = if k = g.state.cleanup.length then 1 else 0 := by
        by_cases hk : k = g.state.cleanup.length
        · simp [Instr.storesTo, Value.global, hk]
        · have hne : cleanupSymbol g.state.cleanup.length ≠ cleanupSymbol k := fun heq =>
            hk (cleanupSymbol_inj heq).symm
          simp [Instr.storesTo, Value.global, hk, hne]
      rw [he.bodyCode, countP_append, h.stored k, hnew, hcleanup, length_append,
        length_singleton]
      split_ifs <;> omega
    case quiet =>
      refine he.forall_code h.quiet ?_
      simp only [nil_append, forall_mem_cons, not_mem_nil, IsEmpty.forall_iff,
        implies_true, and_true]
      refine ⟨⟨fun _ => rfl, ?_, rfl⟩, fun _ => rfl, rfl, rfl⟩
      simpa [Instr.releases, Instr.callee?] using notMem_releasing hmem

theorem Fresh.noted (h : g.Fresh) (hcleanup : g.state.cleanup = []) : Noted g where
  head := by simp [h.head]
  pairs := by simp [Stage.allocations, body, h.done, h.instrs, Ir.allocations, hcleanup]
  rests := by simp [Rests, h.instrs]
  stored := by simp [bodyCode, body, h.done, h.instrs, hcleanup]
  quiet := by simp [code, bodyCode, body, h.head, h.done, h.instrs]

theorem Step.exit_mem_reserved {P : Lexicon} (h : Step ctx P g g')
    (hmem : exitLabel ∈ g'.reserved) : exitLabel ∈ g.reserved := by
  cases h with
  | move h => exact h.grows.reserved ▸ hmem
  | label stem => exact (mem_cons.mp hmem).resolve_left (label_ne (by decide)).symm
  | jump hj => exact ((hj.remaining _).mp hmem).1
  | enterLoop | leaveLoop => exact hmem

/-- As long as the last block of a program is not begun, all that it reserves is noted. -/
theorem Steps.noted {start : Stage} (h : Steps ctx (.of Dotless) start g)
    (hprogram : ctx.naming.mode = .program) (hs : Tidy start.state)
    (hg : start.Sound ctx (.of Dotless)) (htracks : Tracks ctx start.state) (hstart : Noted start) :
    exitLabel ∈ g.reserved → Noted g := by
  induction h with
  | refl => exact fun _ => hstart
  | @tail g₁ g₂ hsteps hstep ih =>
    intro hmem
    have hreserved := hstep.exit_mem_reserved hmem
    have hsound := Steps.sound hsteps hg
    have htracks₁ : Tracks ctx g₁.state := ⟨(Steps.persists hsteps).mode.trans htracks.1, htracks.2⟩
    -- A label that is still to be used is not that of the current block.
    have hlabel : g₁.label ≠ exitLabel := fun heq =>
      hsound.fresh _ hreserved (heq ▸ g₁.label_mem)
    exact (ih hreserved).step hprogram (Steps.tidy hprogram hsteps hs) hsound htracks₁ hlabel hstep

/-! ## Other functions -/

/-- An instruction that accesses no noted address and frees nothing. -/
structure Harmless (i : Instr) : Prop where
  storesTo : ∀ k, i.storesTo (cleanupSymbol k) = false
  loadsFrom : ∀ k, i.loadsFrom (cleanupSymbol k) = false
  releases : i.releases = false

theorem Step.harmless (hstep : Step ctx (.of Dotless) g g') (hprogram : ctx.naming.mode = .program)
    (hs : Tidy g.state) (hg : g.Sound ctx (.of Dotless)) (hnot : ¬ Tracks ctx g.state)
    (h : ∀ i ∈ g.code, Harmless i) :
    (∀ i ∈ g'.code, Harmless i) ∧ g'.state.cleanup = g.state.cleanup := by
  obtain ⟨slots, code, he, hchanges⟩ := hstep.changes hprogram hs hg
  cases hchanges with
  | spares hspares _ hcleanup =>
    refine ⟨he.forall_code h fun i hi => ?_, hcleanup⟩
    exact ⟨(hspares i hi).storesTo, (hspares i hi).loadsFrom, (hspares i hi).releases⟩
  | @allocates dst ret callee args owner _ hcleanup =>
    have hcall : Harmless (.call dst ret callee args) := by
      refine ⟨fun _ => rfl, fun _ => rfl, ?_⟩
      simpa [Instr.releases, Instr.callee?] using notMem_releasing owner
    exact ⟨he.forall_code h (by simpa using hcall), hcleanup⟩
  | reserves _ tracked => exact absurd tracked hnot
  | releases _ tracked => exact absurd tracked hnot

theorem Steps.harmless {start : Stage} (h : Steps ctx (.of Dotless) start g)
    (hprogram : ctx.naming.mode = .program) (hs : Tidy start.state)
    (hg : start.Sound ctx (.of Dotless)) (hnot : ¬ Tracks ctx start.state)
    (hstart : ∀ i ∈ start.code, Harmless i) :
    (∀ i ∈ g.code, Harmless i) ∧ g.state.cleanup = start.state.cleanup := by
  induction h with
  | refl => exact ⟨hstart, rfl⟩
  | @tail g₁ g₂ hsteps hstep ih =>
    have hnot₁ : ¬ Tracks ctx g₁.state := fun ht =>
      hnot ⟨(Steps.persists hsteps).mode.symm.trans ht.1, ht.2⟩
    obtain ⟨hcode, hcleanup⟩ := hstep.harmless hprogram (Steps.tidy hprogram hsteps hs)
      (Steps.sound hsteps hg) hnot₁ ih.1
    exact ⟨hcode, hcleanup.trans ih.2⟩

theorem tidy_finish (hs : Tidy g.state) (t : Instr) : Tidy (g.finish t) :=
  ⟨hs.slots, hs.globals, hs.vars, hs.functions, hs.declared⟩

theorem lowered_harmless {statements : List Node} {todo : List Routine} {s s' : State}
    (hnames : ∀ name ∈ Node.namesAll statements, Dotless name)
    (hprogram : ctx.naming.mode = .program) (hs : Tidy s)
    (hentry : entryFunction statements ctx (State.start ctx.target ctx.naming statements) =
      .ok ((), s)) (h : Pending ctx statements todo s') :
    Tidy s' ∧ s'.cleanup = s.cleanup ∧
      ∃ added, s'.assembly.functions = s.assembly.functions ++ added ∧
        ∀ i ∈ added.flatMap Func.instrs, Harmless i := by
  induction h with
  | entry h =>
    obtain rfl : s = _ := congrArg Prod.snd (Except.ok.inj (hentry.symm.trans h))
    exact ⟨hs, rfl, [], by simp, by simp⟩
  | @body r rest s₁ s₂ before h ih =>
    obtain ⟨g, t, hdone, rfl⟩ := before.completes hnames h
    obtain ⟨hs₁, hcleanup₁, added, hadded, hall⟩ := ih
    have htidy : Tidy (routine s₁ r).state := hs₁.congr rfl rfl rfl
    have hnot : ¬ Tracks ctx (routine s₁ r).state := fun ht => by
      simp [routine, State.enter, Tracks] at ht
    obtain ⟨hcode, hcleanup⟩ := Steps.harmless hdone.steps hprogram htidy hdone.origin hnot
      (by simp [routine, code, bodyCode, body])
    refine ⟨tidy_finish (Steps.tidy hprogram hdone.steps htidy) t, hcleanup.trans hcleanup₁,
      added ++ [g.complete t], ?_, ?_⟩
    · have hfunctions : (g.finish t).assembly.functions =
          g.state.assembly.functions ++ [g.complete t] := rfl
      rw [hfunctions, (Steps.persists hdone.steps).functions, ← append_assoc, ← hadded]
      rfl
    · -- The code of the new function is that of its stage and a `ret`.
      have hret : Harmless t := by
        have hspares := spares_of_isTerminator hdone.isTerminator
        exact ⟨hspares.storesTo, hspares.loadsFrom, hspares.releases⟩
      have hnew : ∀ i ∈ (g.complete t).instrs, Harmless i := by
        have hextends : Extends [] [t] g (g.effect t) :=
          ⟨(append_nil _).symm, .inl ⟨rfl, rfl⟩⟩
        rw [hdone.instrs]
        exact hextends.forall_code hcode (by simpa using hret)
      simpa [or_imp, forall_and] using ⟨by simpa using hall, hnew⟩

/-! ## The last block -/

theorem releaseAll_code (entries : List Cleanup) : ∀ g : Stage,
    (g.releaseAll entries).head = g.head ∧ (g.releaseAll entries).done = g.done ∧
      (g.releaseAll entries).label = g.label ∧
      (g.releaseAll entries).instrs = g.instrs ++ freeing g.next entries ∧
      (g.releaseAll entries).state.cleanup = g.state.cleanup := by
  induction entries with
  | nil => exact fun g => ⟨rfl, rfl, rfl, (append_nil _).symm, rfl⟩
  | cons e rest ih =>
    intro g
    obtain ⟨hhead, hdone, hlabel, hinstrs, hcleanup⟩ := ih (g.release e)
    refine ⟨hhead, hdone, hlabel, hinstrs.trans ?_, hcleanup⟩
    show g.instrs ++ [_] ++ [_] ++ freeing (g.next + 1) rest = _
    simp [freeing]

theorem body_effect (g : Stage) (i : Instr) :
    (g.effect i).body = g.done ++ [⟨g.label, g.instrs ++ [i]⟩] :=
  rfl

/-- The last block of a program comes after all others. -/
theorem Exits.layout {t : Instr} (h : Exits ctx g g' t) (htracks : Tracks ctx g.state) :
    (g'.effect t).head = g.head ∧
      (g'.effect t).body = g.done ++ [⟨g.label, g.instrs ++ [.br exitLabel]⟩,
        ⟨exitLabel, freeing g.next g.state.cleanup ++ [.ret (some (.int .i32 0))]⟩] ∧
      g'.state.cleanup = g.state.cleanup := by
  obtain ⟨-, rfl, rfl⟩ := h.program htracks
  obtain ⟨hhead, hdone, hlabel, hinstrs, hcleanup⟩ :=
    releaseAll_code g.state.cleanup (g.goto (.br exitLabel) exitLabel)
  refine ⟨hhead, ?_, hcleanup⟩
  rw [body_effect, hdone, hlabel, hinstrs]
  exact append_assoc _ _ _

section

variable {entries : List Cleanup}

theorem callee_freeing (r : Reg) :
    (freeing r entries).filterMap Instr.callee? = entries.map (·.destroy) := by
  induction entries generalizing r with
  | nil => rfl
  | cons e rest ih => simp [freeing, filterMap_cons, Instr.callee?, ih]

theorem countP_loadsFrom_freeing (r : Reg) (symbol : String) :
    (freeing r entries).countP (·.loadsFrom symbol) = (entries.map (·.slot)).count symbol := by
  induction entries generalizing r with
  | nil => rfl
  | cons e rest ih =>
    rw [freeing, countP_cons, countP_cons, ih, map_cons, count_cons]
    simp [Instr.loadsFrom, Value.global]

theorem forall_freeing {p : Instr → Prop} (hload : ∀ r e, p (.load r .ptr (.global e)))
    (hcall : ∀ e ∈ entries, ∀ r, p (.call none .void e.destroy [.reg r .ptr])) (r : Reg) :
    ∀ i ∈ freeing r entries, p i := by
  induction entries generalizing r with
  | nil => simp [freeing]
  | cons e rest ih =>
    obtain ⟨he, hrest⟩ := forall_mem_cons.mp hcall
    exact forall_mem_cons.mpr ⟨hload r e.slot, forall_mem_cons.mpr ⟨he r, ih hrest _⟩⟩

end

/-! ## The unit -/

theorem releasing_calls_eq_nil {code : List Instr} (h : ∀ i ∈ code, i.releases = false) :
    (code.filterMap Instr.callee?).filter (· ∈ Catalog.releasing) = [] := by
  refine filter_eq_nil_iff.mpr fun callee hcallee => ?_
  obtain ⟨i, hi, hname⟩ := mem_filterMap.mp hcallee
  have hnot := h i hi
  rw [Instr.releases, hname] at hnot
  simpa using hnot

theorem allocations_withHead {head : List Instr} (h : ∀ i ∈ head, i.allocates = false)
    (blocks : List Block) :
    (withHead head blocks).flatMap (fun b => Ir.allocations b.instrs) =
      blocks.flatMap fun b => Ir.allocations b.instrs := by
  cases blocks with
  | nil => rfl
  | cons b rest =>
    have happend : Ir.allocations (head ++ b.instrs) = Ir.allocations b.instrs := by
      rw [allocations_append fun i hi => h i (mem_of_getLast? hi), allocations_eq_nil h,
        nil_append]
    simp [withHead, happend]

theorem destroy_mem_releasing {pairs : List (Instr × Option Instr)} {cleanup : List Cleanup}
    (h : List.Forall₂ Notes pairs cleanup) : ∀ e ∈ cleanup, e.destroy ∈ Catalog.releasing := by
  have hall : ∀ owner ∈ Catalog.owners, owner.2 ∈ Catalog.releasing := by decide
  induction h with
  | nil => simp
  | cons hnotes _ ih =>
    obtain ⟨-, callee, -, howner, -⟩ := hnotes
    exact forall_mem_cons.mpr ⟨hall _ howner, ih⟩

/-- A program whose entry function is complete frees what it reserves, if other functions are
harmless. -/
theorem Noted.freesAll {start : Stage} {t : Instr} {s : State} {added : List Func} (h : Noted g)
    (htracks : Tracks ctx g.state) (hexits : Exits ctx g g' t)
    (hdone : Completes ctx (.of Dotless) start g' t) (hs : Tidy s)
    (hcleanup : s.cleanup = g'.state.cleanup)
    (hfunctions : s.assembly.functions = g'.complete t :: added)
    (hadded : ∀ i ∈ added.flatMap Func.instrs, Harmless i) :
    FreesAll s.assembly (g'.complete t) s.cleanup := by
  obtain ⟨hhead, hbody, hsame⟩ := hexits.layout htracks
  have hdestroy := destroy_mem_releasing h.pairs
  have hslots := hs.slots
  have hglobals := hs.globals
  rw [hcleanup.trans hsame] at hslots hglobals ⊢
  -- Each noted address has its number.
  have hnumber : ∀ e ∈ g.state.cleanup, ∃ k < g.state.cleanup.length, cleanupSymbol k = e.slot := by
    intro e he
    have hmem : e.slot ∈ (List.range g.state.cleanup.length).map cleanupSymbol :=
      hslots ▸ mem_map.mpr ⟨e, he, rfl⟩
    obtain ⟨k, hk, heq⟩ := mem_map.mp hmem
    exact ⟨k, mem_range.mp hk, heq⟩
  -- The last block neither reserves memory nor notes an address.
  have hlast : ∀ i ∈ freeing g.next g.state.cleanup ++ [.ret (some (.int .i32 0))],
      i.allocates = false ∧ ∀ k, i.storesTo (cleanupSymbol k) = false := by
    refine forall_mem_append.mpr ⟨forall_freeing (fun _ _ => ⟨rfl, fun _ => rfl⟩) ?_ _, ?_⟩
    · intro e he r
      have hfree : e.destroy ∉ Catalog.owners.map (·.1) := fun hmem =>
        notMem_releasing hmem (hdestroy e he)
      exact ⟨by simpa [Instr.allocates, Instr.callee?] using hfree, fun _ => rfl⟩
    · simpa using ⟨rfl, fun _ => rfl⟩
  have hblocks := hdone.blocks
  rw [hbody, show g'.head = g.head from hhead] at hblocks
  -- The code of the entry function is what was written before, a jump, and the last block.
  have hcode : (g'.complete t).instrs = g.code ++
      (.br exitLabel :: (freeing g.next g.state.cleanup ++ [.ret (some (.int .i32 0))])) := by
    rw [hdone.instrs, Stage.code, Stage.code, bodyCode, hhead, hbody]
    simp [bodyCode, body]
  have hall : s.assembly.instrs = (g'.complete t).instrs ++ added.flatMap Func.instrs := by
    rw [Assembly.instrs, hfunctions, flatMap_cons]
  constructor
  case noted =>
    have hbefore : (g'.complete t).allocations = g.allocations := by
      rw [Func.allocations, hblocks, allocations_withHead fun i hi => (h.head i hi).allocates]
      have hjump := allocations_append (b := [.br exitLabel]) h.rests
      simp [Stage.allocations, body, hjump, allocations_eq_nil fun i hi => (hlast i hi).1]
      rfl
    rw [hbefore]
    exact h.pairs
  case slots => exact hslots
  case globals =>
    intro e he
    obtain ⟨k, hk, heq⟩ := hnumber e he
    rw [← heq, hglobals, if_pos hk]
    rfl
  case stored =>
    intro e he
    obtain ⟨k, hk, heq⟩ := hnumber e he
    have hslot : g.head.countP (·.storesTo (cleanupSymbol k)) = 0 :=
      countP_eq_zero.mpr fun i hi => by simp [(h.head i hi).storesTo k]
    have hend : (Instr.br exitLabel :: (freeing g.next g.state.cleanup ++
        [.ret (some (.int .i32 0))])).countP (·.storesTo (cleanupSymbol k)) = 0 := by
      rw [countP_cons_of_neg (by simp [Instr.storesTo])]
      exact countP_eq_zero.mpr fun i hi => by simp [(hlast i hi).2 k]
    have hother : (added.flatMap Func.instrs).countP (·.storesTo (cleanupSymbol k)) = 0 :=
      countP_eq_zero.mpr fun i hi => by simp [(hadded i hi).storesTo k]
    rw [← heq, hall, hcode, countP_append, countP_append, hend, hother, Stage.code,
      countP_append, hslot, h.stored, if_pos hk]
  case loaded =>
    intro e he
    obtain ⟨k, hk, heq⟩ := hnumber e he
    have hbefore : g.code.countP (·.loadsFrom (cleanupSymbol k)) = 0 :=
      countP_eq_zero.mpr fun i hi => by simp [(h.quiet i hi).loadsFrom k]
    have hother : (added.flatMap Func.instrs).countP (·.loadsFrom (cleanupSymbol k)) = 0 :=
      countP_eq_zero.mpr fun i hi => by simp [(hadded i hi).loadsFrom k]
    have hnodup : ((List.range g.state.cleanup.length).map cleanupSymbol).Nodup :=
      nodup_range.map fun _ _ => cleanupSymbol_inj
    have honce : (g.state.cleanup.map (·.slot)).count (cleanupSymbol k) = 1 := by
      rw [hslots]
      exact count_eq_one_of_mem hnodup (mem_map.mpr ⟨k, mem_range.mpr hk, rfl⟩)
    rw [← heq, hall, hcode, countP_append, countP_append, hbefore, hother,
      countP_cons_of_neg (by simp [Instr.loadsFrom]), countP_append,
      countP_loadsFrom_freeing, honce]
    rfl
  case exit =>
    refine ⟨g.next, hdone.wellFormed.block?_eq (b := ⟨exitLabel, _⟩) ?_⟩
    rw [hblocks]
    cases g.done <;> simp [withHead]
  case returns =>
    have hbefore : g.code.countP Instr.isReturn = 0 :=
      countP_eq_zero.mpr fun i hi => by simp [(h.quiet i hi).isReturn]
    have hfreeing : (freeing g.next g.state.cleanup).countP Instr.isReturn = 0 :=
      countP_eq_zero.mpr (forall_freeing (fun _ _ => by simp [Instr.isReturn])
        (fun _ _ _ => by simp [Instr.isReturn]) _)
    rw [hcode, countP_append, hbefore, countP_cons_of_neg (by simp [Instr.isReturn]),
      countP_append, hfreeing]
    rfl
  case freed =>
    have hcalls : (s.assembly.functions.flatMap Func.calls).filter (· ∈ Catalog.releasing) =
        (s.assembly.instrs.filterMap Instr.callee?).filter (· ∈ Catalog.releasing) := by
      rw [Assembly.instrs, filterMap_flatMap]
      rfl
    rw [hcalls, hall, hcode]
    simp only [filterMap_append, filter_append,
      releasing_calls_eq_nil fun i hi => (h.quiet i hi).releases,
      releasing_calls_eq_nil fun i hi => (hadded i hi).releases, filterMap_cons,
      callee_freeing]
    simpa [Instr.callee?] using hdestroy

end

end Stage

theorem generate_main {target : Target} {naming : Naming} {observed : List String}
    {statements : List Node} {u : Generated} (hmode : naming.mode = .program)
    (hnames : ∀ name ∈ Node.namesAll statements, Dotless name)
    (hu : generate target naming observed statements = .ok u) :
    ∃ main rest, u.assembly.functions = main :: rest ∧ main.name = "main" ∧
      FreesAll u.assembly main u.cleanup := by
  obtain ⟨s₁, s, hentry, hrest, rfl⟩ := generate_run rfl hu
  obtain ⟨g, t, hdone, rfl, ⟨g₁, g₂, -, -, hsteps, -, hexits⟩⟩ :=
    entry_enters hnames (performs_blockOf hnames) hentry
  have hprogram : (Stage.contextOf target naming observed statements).naming.mode = .program := hmode
  have htidy := Stage.tidy_start target naming statements
  have hsame := Stage.sameCode_start target naming statements
  have htracks : Tracks (Stage.contextOf target naming observed statements)
      (State.start target naming statements) :=
    ⟨hsame.scope, by simp [Naming.isLibrary, hprogram]⟩
  have htracks₂ : Tracks (Stage.contextOf target naming observed statements) g₂.state :=
    ⟨(Stage.Steps.persists hsteps).mode.trans htracks.1, htracks.2⟩
  have hnoted : Stage.Noted g₂ := Stage.Steps.noted hsteps hprogram htidy hdone.origin htracks
    (hdone.fresh.noted hsame.cleanup) (hexits.program htracks₂).1
  obtain ⟨hs, hcleanup, added, hadded, hall⟩ := Stage.lowered_harmless hnames hprogram
    (Stage.tidy_finish (Stage.Steps.tidy hprogram hdone.steps htidy) t) hentry
    ((Pending.entry hentry).forM hrest)
  obtain ⟨hfirst, hname⟩ := hdone.functions_finish
  rw [hfirst] at hadded
  exact ⟨g.complete t, added, hadded, by simpa [Naming.entrySymbol, hprogram] using hname,
    hnoted.freesAll htracks₂ hexits hdone hs hcleanup hadded hall⟩

/-- A program that is generated from identifiers frees what it reserves. -/
theorem generate_freesAll {target : Target} {naming : Naming} {observed : List String}
    {statements : List Node} {u : Generated} (hmode : naming.mode = .program)
    (hnames : ∀ name ∈ Node.namesAll statements, Dotless name)
    (hu : generate target naming observed statements = .ok u) :
    ∃ main, u.assembly.function? "main" = some main ∧ FreesAll u.assembly main u.cleanup := by
  obtain ⟨main, rest, hfunctions, hname, hfrees⟩ := generate_main hmode hnames hu
  exact ⟨main, by simp [Assembly.function?, hfunctions, hname], hfrees⟩

/-- Memory of the program `counting` is reserved for a record and for a string in a loop. -/
theorem freesAll_counting :
    ∃ u main, generate (.resolve none) { mode := .program } ["x"] counting = .ok u ∧
      u.cleanup = [⟨"__cleanup.0", "eigen_destroy"⟩, ⟨"__cleanup.1", "eigen_string_destroy"⟩] ∧
      u.assembly.function? "main" = some main ∧ FreesAll u.assembly main u.cleanup := by
  have hnames : ∀ name ∈ Node.namesAll counting, Dotless name := by
    unfold Dotless
    decide +kernel
  have hcleanup : (generate (.resolve none) { mode := .program } ["x"] counting).toOption.map
      (·.cleanup) = some [⟨"__cleanup.0", "eigen_destroy"⟩,
        ⟨"__cleanup.1", "eigen_string_destroy"⟩] := by
    decide +kernel
  obtain ⟨u, hu⟩ := exists_generate_counting
  obtain ⟨main, hmain, hfrees⟩ := generate_freesAll rfl hnames hu
  rw [hu] at hcleanup
  exact ⟨u, main, hu, Option.some.inj hcleanup, hmain, hfrees⟩

end Lowering

end ScriptCompiler
