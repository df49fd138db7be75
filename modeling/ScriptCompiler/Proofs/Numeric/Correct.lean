import ScriptCompiler.Proofs.Cleanup
import ScriptCompiler.Proofs.Numeric.Lowering

/-!
# Programs of the numeric fragment are compiled correctly

If a program of the numeric fragment is generated and its evaluation ends, then the generated `main`
runs to its end, prints the same numbers in the same order and returns zero.

Between the first block and a jump to the last one, lowering lays out code that follows the evaluation
of the statements (`performs_numericBlock`). What is left is to see that the stage after the last
statement is a function to which this applies: its blocks are found by their labels, since labels are
distinct, and no block defines a slot, since registers are (`linked_complete`); and running the head of
the function gives every slot its address (`execAll_slots`). This much holds of any code that follows
an evaluation (`shown_main`).
-/

namespace ScriptCompiler.Numeric

open Ir Lowering Lowering.Stage

section

variable {ctx : Context} {P : Lexicon} {whole : Prop} {bound : List String} {start g : Stage}
  {t : Instr}

/-! ## The complete function -/

theorem alloca_mem_head (hs : Kept whole bound g) (hg : g.Sound ctx P) {name : String} {r : Reg}
    (hr : slotsOf g.state.globals name = some r) : .alloca r .double ∈ g.head := by
  obtain ⟨b, hb, hreg⟩ := Option.bind_eq_some_iff.mp hr
  rcases hs.vars name b hb with ⟨r', rfl⟩ | ⟨storage, -, rfl⟩
  · obtain rfl : r' = r := by simpa [Value.reg?, Value.reg] using hreg
    exact (hg.globals _ (mem_of_lookup hb) (.inr hs.top)).2.2
  · simp [Value.reg?, Value.global] at hreg

theorem linked_complete {T : Table Binding} (h : Completes ctx P start g t)
    (hT : Separate T) (hslots : ∀ name r, slotsOf T name = some r → .alloca r .double ∈ g.head) :
    Linked (g.complete t) T (g.effect t).body where
  separate := hT
  block := fun before label code after hbody hne => by
    refine h.wellFormed.block?_eq (b := ⟨label, code⟩) ?_
    obtain ⟨b, before, rfl⟩ := List.exists_cons_of_ne_nil hne
    rw [h.blocks, hbody]
    simp [withHead]
  avoids := fun b hb i hi name r hr hdst => by
    have hdistinct := h.written.distinct
    rw [code, registers_append] at hdistinct
    have hhead : r ∈ registers g.head :=
      List.mem_filterMap.mpr ⟨_, hslots name r hr, rfl⟩
    have hbody : r ∈ registers (g.effect t).bodyCode :=
      List.mem_filterMap.mpr ⟨i, List.mem_flatMap.mpr ⟨b, hb, hi⟩, hdst⟩
    exact (List.nodup_append.mp hdistinct).2.2 r hhead r hbody rfl

theorem execAll_slots {ω : Type} {M : Machine ω} {slots : List Instr}
    (h : ∀ i ∈ slots, ∃ r, i = .alloca r .double) :
    ∀ φ : Frame ω, ∃ φ', M.execAll φ slots = some φ' ∧
      φ'.world = φ.world ∧
      ∀ r, .alloca r .double ∈ slots → φ'.regs r = some (.address (.slot r)) := by
  induction slots with
  | nil => exact fun φ => ⟨φ, rfl, rfl, by simp⟩
  | cons i slots ih =>
    intro φ
    obtain ⟨r, rfl⟩ := h i List.mem_cons_self
    have hrest := fun j hj => h j (List.mem_cons_of_mem _ hj)
    let ψ := (φ.set r (.address (.slot r))).write (.slot r) none
    obtain ⟨φ', hrun, hworld, hregs⟩ := ih hrest ψ
    refine ⟨φ', ?_, hworld, fun r' hr' => ?_⟩
    · have hstep : M.exec φ (.alloca r .double) = some ψ := rfl
      simpa [Machine.execAll, hstep] using hrun
    · by_cases hmem : .alloca r' .double ∈ slots
      · exact hregs r' hmem
      · -- The slot is the first one, and no later one is the same.
        obtain rfl : r' = r := by simpa [hmem] using hr'
        have hother : ∀ i ∈ slots, i.dst? ≠ some r' := by
          intro i hi hdst
          obtain ⟨r, rfl⟩ := hrest i hi
          obtain rfl := Option.some.inj hdst
          exact hmem hi
        rw [Machine.regs_execAll hrun hother]
        exact Frame.regs_set

/-! ## The start and the end -/

theorem foldl_declare {naming : Naming} {statements : List Node} {bound : List String}
    (h : isBlock bound statements) (s : State) : statements.foldl (declare naming) s = s := by
  induction statements generalizing bound with
  | nil => rfl
  | cons node rest ih =>
    simp only [isBlock, Bool.and_eq_true] at h
    have hnode : declare naming s node = s := by
      cases node with
      | functionDef name params body => simp [isStmt, isExpr] at h
      | structDef name fields => simp [isStmt, isExpr] at h
      | _ => rfl
    rw [List.foldl_cons, hnode]
    exact ih h.2

theorem start_eq {target : Target} {naming : Naming} {statements : List Node}
    (h : isBlock [] statements) : State.start target naming statements =
      { builder := .ofFunc (entrySkeleton naming), assembly := emptyAssembly target naming } :=
  foldl_declare h _

theorem plainContext_contextOf {target : Target} {naming : Naming} {observed : List String}
    {statements : List Node} (hmode : naming.mode = .program)
    (hmodules : naming.importedModules = []) (hnames : naming.importedNames = [])
    (h : isBlock [] statements) : PlainContext (contextOf target naming observed statements) where
  program := hmode
  modules := hmodules
  names := hnames
  shared := by
    show sharedNames (State.start target naming statements).functions = []
    rw [start_eq h]
    rfl

theorem appends_inits (hprogram : ctx.naming.mode = .program)
    (hmodules : ctx.naming.importedModules = []) {g₁ : Stage} (hg : g.Sound ctx P)
    (hg₁ : g₁.Sound ctx P)
    (hrun : emit (callInits ctx.naming) ctx g.state = .ok ((), g₁.state)) :
    g₁.state = g.state ∧ Appends [] g g₁ := by
  have hinits : callInits ctx.naming = pure () := by
    simp [callInits, Naming.initialized, hprogram, hmodules]
  rw [hinits] at hrun
  have hstate : g₁.state = g.state := (congrArg Prod.snd (Except.ok.inj hrun)).symm
  have hcode : Emitted g.state.builder [] [] g₁.state.builder := hstate ▸ .refl _
  obtain ⟨hhead, hdone, hlabel, hinstrs⟩ := hg.emitted hg₁ hcode
  exact ⟨hstate, ⟨_, by rw [hstate]⟩, hcode.next, by simpa using hhead, hdone, hlabel, hinstrs⟩

theorem kept_entry {s : State} (hs : s = { builder := s.builder, assembly := s.assembly }) :
    Kept whole [] (entry ctx s) := by
  rw [hs]
  exact { vars := by simp [entry], distinct := by simp [entry, slotsOf], top := rfl, functions := rfl,
          under := by simp [entry, slotsOf], boxed := by simp [entry], bound := by simp [entry],
          head := by simp [entry], cleanup := by simp [entry] }

theorem functions_releaseAll (entries : List Cleanup) (g : Stage) :
    (g.releaseAll entries).state.functions = g.state.functions := by
  induction entries generalizing g with
  | nil => rfl
  | cons e rest ih => exact ih (g.release e)

end

section

variable {ω : Type} {N : Numbers} {M : Machine ω} {R : Library N M} {whole : Prop}
  {statements : List Node}

/-- A function follows statements from its start to a jump to its last block, which frees records. -/
structure Shown (R : Library N M) (whole : Prop) (f : Func) (statements : List Node) : Prop where
  exit : ∃ r cleanup, HasBlock f exitLabel (freeing r cleanup ++ [.ret (some (.int .i32 0))]) ∧
    ∀ c ∈ cleanup, c.destroy = Catalog.boxDestroy ∧ whole
  follows : ∀ memory w passes, Ends whole (pursueAll N passes statements {}) fun way ρ =>
    Arrives R f (R.printed w) none (fun φ ρ => R.printed φ.world = R.printed w ++ ρ.output) passes
      (Machine.start f memory w) [.br exitLabel] way ρ

theorem holds_start {T : Table Binding} {first : List Double} {later : List String} {φ : Frame ω}
    (hframed : ∀ name r, slotsOf T name = some r → φ.regs r = some (.address (.slot r)))
    (hprinted : R.printed φ.world = first) : Holds R T first [] later φ {} where
  framed := hframed
  stored := fun _ _ _ _ hx => by simp at hx
  known := by simp
  apart := fun _ _ _ _ h => by simp [Boxes] at h
  output := hprinted.trans (List.append_nil _).symm

/-- If lowering lays out code that follows the evaluation of the statements then the generated `main`
follows it from its start to its end. -/
theorem shown_main {target : Target} {naming : Naming} {observed : List String} {u : Generated}
    {bound later certain' later' : List String} (hmode : naming.mode = .program)
    (hmodules : naming.importedModules = []) (hblock : isBlock [] statements)
    (h : Performs (contextOf target naming observed statements) .any
      (Compiles (KeptOutside whole []) (KeptOutside whole bound) (CarriesOutside R whole [] later
        certain' later' fun passes => pursueAll N passes statements)) (block statements))
    (hu : generate target naming observed statements = .ok u) :
    ∃ main, u.assembly.function? "main" = some main ∧ Shown R whole main statements := by
  obtain ⟨s₁, s, hentry, hrest, rfl⟩ := generate_run rfl hu
  obtain ⟨g, t, hdone, rfl, g₁, g₂, hinits, hg₁, hsteps, hcompiles, hexits⟩ :=
    entry_enters (fun _ _ => trivial) h hentry
  obtain ⟨hstate₁, hfirst⟩ := appends_inits hmode hmodules hdone.origin hg₁ hinits
  have hloops : g₁.state.loopEnds = [] := by rw [hstate₁, entry, start_eq hblock]
  have hcompiled := hcompiles ⟨(lasting_kept whole []).appends
    (kept_entry (by rw [start_eq hblock])) hfirst, hloops⟩
  obtain ⟨hafter, -⟩ := hcompiled.after
  have htracks : Tracks (contextOf target naming observed statements) g₂.state :=
    ⟨hafter.top, by simp [Naming.isLibrary, contextOf, hmode]⟩
  obtain ⟨hhead, hbody, -⟩ := hexits.layout htracks
  have hslots : ∀ name r, slotsOf g₂.state.globals name = some r → .alloca r .double ∈ g.head := by
    intro name r hr
    have hmem := alloca_mem_head hafter (Steps.sound hsteps hdone.origin) hr
    rwa [← hhead] at hmem
  have hlinked := linked_complete hdone hafter.toSeparate hslots
  have hexit : HasBlock (g.complete t) exitLabel
      (freeing g₂.next g₂.state.cleanup ++ [.ret (some (.int .i32 0))]) :=
    hlinked.block (g₂.done ++ [⟨g₂.label, g₂.instrs ++ [.br exitLabel]⟩]) _ _ []
      (by rw [hbody]; simp) (by simp)
  obtain ⟨p, ⟨after, hp⟩, hfollows⟩ :=
    hcompiled.code _ _ _ _ hlinked (.refl _) ⟨[⟨exitLabel, _⟩], hbody⟩
  rw [hfirst.done, hfirst.label, hfirst.instrs] at hp
  have hblocks : (g.complete t).blocks = ⟨"entry", g.head ++ p⟩ :: after := by
    rw [hdone.blocks, hp]
    rfl
  refine ⟨g.complete t, ?_, ⟨_, _, hexit, hafter.cleanup⟩, fun memory w passes => ?_⟩
  · -- There is no other function.
    obtain ⟨hfunctions, hname⟩ := hdone.functions_finish
    have hnone : g.state.functions = [] := by
      obtain ⟨-, hg, -⟩ := hexits.program htracks
      rw [hg, functions_releaseAll]
      exact hafter.functions
    obtain rfl := state_of_forM hrest hnone
    have hmain : (contextOf target naming observed statements).naming.entrySymbol = "main" := by
      simp [Naming.entrySymbol, contextOf, hmode]
    simp [Assembly.function?, hfunctions, hname, hmain]
  · have hallocas : ∀ i ∈ g.head, ∃ r, i = .alloca r .double := by
      intro i hi
      exact hafter.head i (hhead ▸ hi)
    obtain ⟨φ, hrun, hworld, hregs⟩ :=
      execAll_slots (M := M) hallocas ⟨fun _ => none, memory, w⟩
    have hholds : Holds R g₂.state.globals (R.printed w) [] later φ {} :=
      holds_start (fun name r hr => hregs r (hslots name r hr)) (congrArg R.printed hworld)
    have hreach : M.Reaches (g.complete t) (Machine.start (g.complete t) memory w) ⟨p, φ⟩ := by
      have hbegin : Machine.start (g.complete t) memory w =
          ⟨g.head ++ p, ⟨fun _ => none, memory, w⟩⟩ := by
        simp [Machine.start, hblocks]
      rw [hbegin]
      exact Machine.reaches_execAll hrun
    exact (hfollows (by rw [hloops]; rfl) (R.printed w) passes φ {} hholds).mono id fun _ _ harrives =>
      (harrives.mono fun _ _ h => h.output).afterReaches hreach

end

/-! ## The numeric fragment -/

/-- Programs of the numeric fragment have no records. -/
def library (N : Numbers) : Library N (machine N) where
  printed := id
  value _ _ := none
  arithmetic := rfl
  get h := nomatch h
  update h := nomatch h
  print := by
    rintro symbol w (rfl | ⟨-, a, y, h⟩) x
    · exact ⟨_, rfl, rfl, rfl⟩
    · simp at h
  maths := True
  compute _ _ _ _ h w := ⟨w, h w, rfl, rfl⟩

/-- A program of the numeric fragment is compiled correctly. If it is generated and its evaluation
ends, then the generated `main`, whatever memory holds at first, runs to its end, prints the same
numbers in the same order and returns zero. -/
theorem run_main_of_execAll {N : Numbers} {target : Target} {naming : Naming}
    {statements : List Node} {u : Generated} {fuel : Nat} {outcome : Outcome} {σ : Store}
    (hmode : naming.mode = .program) (hmodules : naming.importedModules = [])
    (hnames : naming.importedNames = []) (hblock : isBlock [] statements)
    (hu : generate target naming [] statements = .ok u)
    (hexec : execAll N fuel statements {} = some (outcome, σ)) (memory : Address → Option Datum) :
    ∃ main, u.assembly.function? "main" = some main ∧
      ∃ steps, (machine N).run main steps (Machine.start main memory []) =
        some (some (.word 0), σ.output) := by
  have hctx : PlainContext (contextOf target naming [] statements) :=
    plainContext_contextOf hmode hmodules hnames hblock
  have hperforms := (performs_numericBlock (library N) False [] (assignedAll statements) hctx
    (fun _ => rfl) statements [] hblock (.inl trivial) False.elim (List.Subset.refl _)).mono
      fun _ _ h => h.outside (List.Subset.refl _) (List.Subset.refl _)
  obtain ⟨main, hmain, ⟨r, cleanup, hexit, hcleanup⟩, hfollows⟩ :=
    shown_main hmode hmodules hblock hperforms hu
  refine ⟨main, hmain, ?_⟩
  obtain ⟨way, σ₁, hway, hlift⟩ : ∃ way σ₁, pursueAll N fuel statements {} = some (way, σ₁) ∧
      (liftM way : Eval Outcome) σ₁ = some (outcome, σ) := by
    rw [execAll_eq] at hexec
    obtain ⟨⟨way, σ₁⟩, hway, hlift⟩ := Option.bind_eq_some_iff.mp hexec
    exact ⟨way, σ₁, hway, hlift⟩
  have harrives := hfollows memory [] fuel
  rw [hway] at harrives
  -- However the statements end, control comes to the last block.
  obtain ⟨φ, hreach, hprinted⟩ : ∃ φ, (machine N).Reaches main (Machine.start main memory [])
      ⟨[.br exitLabel], φ⟩ ∧ φ.world = σ.output := by
    rcases way with _ | ⟨_ | _ | _⟩
    · exact absurd hlift (by simp [liftM, monadLift, MonadLift.monadLift, StateT.lift])
    · obtain ⟨φ, hreach, hprinted⟩ := harrives
      obtain ⟨-, rfl⟩ := Prod.mk.inj (Option.some.inj hlift)
      exact ⟨φ, hreach, hprinted⟩
    · obtain ⟨label, φ, hlabel, -⟩ := harrives
      simp at hlabel
    · obtain ⟨φ, hreach, hprinted⟩ := harrives
      obtain ⟨-, rfl⟩ := Prod.mk.inj (Option.some.inj hlift)
      exact ⟨φ, hreach, hprinted⟩
  -- Nothing is to be freed, so the last block returns at once.
  obtain rfl : cleanup = [] := List.eq_nil_iff_forall_not_mem.mpr fun c hc => (hcleanup c hc).2
  have hlast : (machine N).run main 1 ⟨[.ret (some (.int .i32 0))], φ⟩ =
      some (some (.word 0), σ.output) := by
    rw [← hprinted]
    rfl
  exact Machine.run_of_reaches (hreach.trans (Machine.reaches_br hexit)) hlast

/-- Arithmetic of the smallest numbers, which are the multiples of the least positive one: they are
added as their bits are. -/
def leastNumbers : Numbers where
  add x y := ⟨x.bits + y.bits⟩
  sub x y := ⟨x.bits - y.bits⟩
  mul x _ := x
  div x _ := x
  rem x _ := x
  neg x := ⟨x.bits ^^^ 0x8000000000000000⟩
  math _ x := x
  pow x _ := x

/-- A program that counts in a loop, prints on the way and leaves the loop in the middle. -/
def countingUp : List Node :=
  [.assignment "x" (.literal .null),
    .loop (.identifier "True")
      [.assignment "x" (.binary "+" (.identifier "x") (.literal (.number ⟨1⟩))),
        .conditional (.binary ">" (.identifier "x") (.literal (.number ⟨3⟩)))
          [.breakLoop, .relation (.identifier "print") (.literal .null)]
          [.assignment "last" (.binary "and" (.identifier "x") (.unary "-" (.identifier "x")))],
        .relation (.identifier "print")
          (.relation (.identifier "pow") (.listLiteral [.identifier "x", .identifier "last"]))],
    .relation (.identifier "print") (.relation (.identifier "sqrt") (.identifier "last")),
    .ret none,
    .relation (.identifier "print") (.identifier "x")]

theorem run_main_countingUp :
    ∃ u σ, generate (.resolve none) { mode := .program } [] countingUp = .ok u ∧
      execAll leastNumbers 9 countingUp {} = some (.returned, σ) ∧
      σ.output = [⟨1⟩, ⟨2⟩, ⟨3⟩, .one] ∧
      ∀ memory, ∃ main, u.assembly.function? "main" = some main ∧
        ∃ steps, (machine leastNumbers).run main steps (Machine.start main memory []) =
          some (some (.word 0), σ.output) := by
  have hgenerate : (generate (.resolve none) { mode := .program } [] countingUp).toOption.isSome =
      true := by
    decide +kernel
  have hexec : (execAll leastNumbers 9 countingUp {}).map (fun r => (r.1, r.2.output)) =
      some (.returned, [⟨1⟩, ⟨2⟩, ⟨3⟩, .one]) := by
    decide +kernel
  cases hu : generate (.resolve none) { mode := .program } [] countingUp with
  | error e => simp [hu, Except.toOption] at hgenerate
  | ok u =>
    obtain ⟨⟨outcome, σ⟩, hrun, heq⟩ := Option.map_eq_some_iff.mp hexec
    obtain ⟨rfl, houtput⟩ := Prod.mk.inj heq
    exact ⟨u, σ, rfl, hrun, houtput, fun memory =>
      run_main_of_execAll rfl rfl rfl (by decide +kernel) hu hrun memory⟩

end ScriptCompiler.Numeric
