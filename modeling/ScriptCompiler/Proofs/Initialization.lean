import Mathlib.Data.List.Count
import Mathlib.Data.List.Induction
import ScriptCompiler.Proofs.Accepted
import ScriptCompiler.Proofs.Cleanup

/-!
# Initializers are called first

The entry function of a program begins with a call of the initializer of each imported module, and
nothing else in it calls one. The order is that of the caller's options, and then that of the unit
for the modules that the options do not name. Imports of the unit are taken once each, but the
modules of the options are taken as they are listed, so that one listed twice is initialized twice
(`calls_main_importedTwice`).

The calls are in place before the first statement is lowered. From then on a step may call what any
function may (`Stage.Steps.follows`): a catalogued function, a function of the unit or an external
one. Of these only the last cannot be an initializer, since initializers are declared at the start;
but a call of a function or of a catalogued function under that name would not pass the check.
-/

namespace ScriptCompiler

open List

/-! ## The order of modules -/

namespace Text

theorem addNew_append (names more others : List String) :
    addNew names (more ++ others) = addNew (addNew names more) others :=
  foldl_append

theorem addNew_singleton (names : List String) (name : String) :
    addNew names [name] = if name ∈ names then names else names ++ [name] := rfl

theorem mem_addNew {names more : List String} {name : String} :
    name ∈ addNew names more ↔ name ∈ names ∨ name ∈ more := by
  induction more using List.reverseRecOn with
  | nil => simp [addNew]
  | append_singleton more last ih =>
    rw [addNew_append, addNew_singleton]
    split <;> grind

theorem nodup_addNew {names : List String} (h : names.Nodup) (more : List String) :
    (addNew names more).Nodup := by
  induction more using List.reverseRecOn with
  | nil => exact h
  | append_singleton more last ih =>
    rw [addNew_append, addNew_singleton]
    split
    case isTrue => exact ih
    case isFalse hnew => simpa [nodup_append] using ⟨ih, fun _ hmem heq => hnew (heq ▸ hmem)⟩

theorem addNew_addNew (names more : List String) :
    addNew names (addNew [] more) = addNew names more := by
  induction more using List.reverseRecOn with
  | nil => rfl
  | append_singleton more last ih =>
    rw [addNew_append [] more, addNew_singleton]
    split
    case isTrue hmem =>
      have hlast : last ∈ addNew names more := by
        rw [mem_addNew] at hmem ⊢
        exact .inr (hmem.resolve_left not_mem_nil)
      rw [ih, addNew_append, addNew_singleton, if_pos hlast]
    case isFalse => rw [addNew_append, ih, addNew_append]

theorem addNew_nil_of_nodup {names : List String} (h : names.Nodup) : addNew [] names = names := by
  induction names using List.reverseRecOn with
  | nil => rfl
  | append_singleton names last ih =>
    obtain ⟨hnames, -, hapart⟩ := nodup_append.mp h
    have hlast : last ∉ names := fun hmem => hapart last hmem last mem_cons_self rfl
    rw [addNew_append, ih hnames, addNew_singleton, if_neg hlast]

/-- New names are added behind the others, each at its first occurrence. -/
theorem addNew_eq (more : List String) : ∀ names : List String,
    addNew names more = names ++ (more.removeAll names).eraseDups := by
  induction more with
  | nil => simp [addNew, List.removeAll]
  | cons name rest ih =>
    intro names
    have hstep : addNew names (name :: rest) =
        addNew (if name ∈ names then names else names ++ [name]) rest := rfl
    rw [hstep, ih]
    by_cases hmem : name ∈ names
    · simp [List.removeAll, hmem]
    · have hfilter : (rest.removeAll names).filter (fun other => !other == name) =
          rest.removeAll (names ++ [name]) := by
        rw [List.removeAll, List.removeAll, filter_filter]
        refine filter_congr fun other _ => ?_
        by_cases heq : other = name <;> simp [heq]
      have hfirst : (name :: rest).removeAll names = name :: rest.removeAll names := by
        simp [List.removeAll, hmem]
      rw [if_neg hmem, hfirst, eraseDups_cons, hfilter, append_assoc,
        singleton_append]

theorem eraseDups_eq_addNew (names : List String) : names.eraseDups = addNew [] names := by
  rw [addNew_eq, nil_append]
  congr 1
  simp [List.removeAll]

theorem count_addNew {names more : List String} {name : String} (h : name ∈ addNew names more) :
    (addNew names more).count name = max 1 (names.count name) := by
  have hadded : (more.removeAll names).eraseDups.Nodup := by
    rw [eraseDups_eq_addNew]
    exact nodup_addNew nodup_nil _
  rw [addNew_eq, mem_append, mem_eraseDups] at h
  rw [addNew_eq, count_append]
  by_cases hmem : name ∈ names
  · have hnone : name ∉ (more.removeAll names).eraseDups := by
      simp [mem_eraseDups, List.removeAll, hmem]
    have hpos := count_pos_iff.mpr hmem
    rw [count_eq_zero.mpr hnone]
    omega
  · have hnew := h.resolve_left hmem
    rw [count_eq_zero.mpr hmem, count_eq_one_of_mem hadded (mem_eraseDups.mpr hnew)]
    rfl

end Text

/-- The module that an import statement names. -/
def Node.imported? : Node → Option String
  | .importModule module => some module
  | _ => none

/-- The modules that a unit imports, in order and with repetitions: those of the resolved imports
and then those of the import statements. -/
def SourceUnit.imported (u : SourceUnit) : List String :=
  u.imports.map (·.module) ++ u.statements.filterMap Node.imported?

theorem importedModules_mergedWith (options : Options) (u : SourceUnit) :
    (options.mergedWith u).importedModules = Text.addNew options.importedModules u.imported := by
  show Text.addNew options.importedModules (Text.addNew [] u.imported) = _
  exact Text.addNew_addNew _ _

namespace Lowering

open Ir

namespace Stage

/-! ## The first calls -/

/-- The call of an initializer. -/
def initCall (module : String) : Instr := .call none .void (initSymbol module) []

theorem blocks_callInits {label : String} (modules : List String) : ∀ {b : Builder} {instrs},
    b.func.blocks = [⟨label, instrs⟩] → b.current = 0 →
      ((modules.forM fun module => Emit.callVoid (initSymbol module) []) b).2.func.blocks =
          [⟨label, instrs ++ modules.map initCall⟩] ∧
        ((modules.forM fun module => Emit.callVoid (initSymbol module) []) b).2.entryInsert =
          b.entryInsert := by
  induction modules with
  | nil =>
    intro b instrs hblocks _
    rw [map_nil, append_nil]
    exact ⟨hblocks, rfl⟩
  | cons module rest ih =>
    intro b instrs hblocks hcurrent
    have hpush : (b.push (initCall module)).func.blocks =
        [⟨label, instrs ++ [initCall module]⟩] := by
      simp [Builder.push, Builder.modifyBlock, hblocks, hcurrent, Block.push]
    obtain ⟨hrest, hinsert⟩ := ih hpush hcurrent
    refine ⟨hrest.trans ?_, hinsert⟩
    simp

section

variable {ctx : Context} {P : Lexicon} {start g g' g₁ : Stage}

theorem Sound.instrs (h : g.Sound ctx P) : g.func.instrs = g.code := by
  rw [Func.instrs, h.layout, flatMap_withHead _ (by simp [body])]
  rfl

theorem Sound.code_of_callInits (hstart : start.Sound ctx P) (hfresh : start.Fresh)
    (hg : g.Sound ctx P)
    (h : emit (callInits ctx.naming) ctx start.state = .ok ((), g.state)) :
    g.head = [] ∧ g.bodyCode = ctx.naming.initialized.map initCall := by
  have hbuilder : g.state.builder = (callInits ctx.naming start.state.builder).2 :=
    congrArg (fun p => p.2.builder) (Except.ok.inj h).symm
  have hempty : start.state.builder.func.blocks = [⟨"entry", []⟩] := by
    have hlayout := hstart.layout
    rwa [body, hfresh.head, hfresh.done, hfresh.label, hfresh.instrs] at hlayout
  have hcurrent : start.state.builder.current = 0 := by
    rw [hstart.current, hfresh.done]
    rfl
  obtain ⟨hblocks, hinsert⟩ := blocks_callInits ctx.naming.initialized hempty hcurrent
  have hhead : g.head = [] := by
    have hlength := hg.entryInsert
    rw [hbuilder] at hlength
    rw [← length_eq_zero_iff, ← hlength]
    refine hinsert.trans ?_
    rw [hstart.entryInsert, hfresh.head]
    rfl
  refine ⟨hhead, ?_⟩
  have hcode : g.func.instrs = ctx.naming.initialized.map initCall := by
    rw [Func.instrs, Stage.func, hbuilder]
    refine (congrArg (List.flatMap (·.instrs)) hblocks).trans ?_
    simp
  have hinstrs := hg.instrs
  rwa [code, hhead, nil_append, hcode, eq_comm] at hinstrs

/-! ## The calls that follow -/

theorem Step.head_calls (h : Step ctx P g g') (hg : ∀ i ∈ g.head, i.callee? = none) :
    ∀ i ∈ g'.head, i.callee? = none := by
  cases h with
  | move h =>
    cases h with
    | slot ty => simpa [slot, build, or_imp, forall_and, Instr.callee?] using hg
    | nullSlot => simpa [nullSlot, build, or_imp, forall_and, Instr.callee?] using hg
    | _ => exact hg
  | _ => exact hg

theorem called_of_length_le {s : State} {ret : Ty} {callee : String} {types : List Ty}
    (hlength : ctx.naming.initialized.length ≤ s.builder.func.instrs.length)
    (h : Callable ctx P s ret callee types) :
    Called ctx .function s.functions s.externals.functions ret callee types := by
  cases h with
  | initializer mem top early => omega
  | catalogued mem free => exact .catalogued mem
  | routine mem => exact .routine mem
  | external mem => exact .external mem

/-- What is added from one stage to another calls what any function may call. -/
structure Follows (ctx : Context) (g₁ g : Stage) : Prop where
  slots : ∀ i ∈ g.head, i.callee? = none
  code : ∃ code, g.bodyCode = g₁.bodyCode ++ code ∧
    ∀ dst ret callee args, .call dst ret callee args ∈ code →
      Called ctx .function g.state.functions g.state.externals.functions ret callee
        (args.map (·.ty))

theorem Steps.follows (h : Steps ctx P g₁ g) (hg₁ : g₁.Sound ctx P) (hs : Declares ctx g₁.state)
    (hslots : ∀ i ∈ g₁.head, i.callee? = none)
    (hfull : ctx.naming.initialized.length ≤ g₁.bodyCode.length) : Follows ctx g₁ g := by
  induction h with
  | refl => exact ⟨hslots, [], (append_nil _).symm, by simp⟩
  | @tail g g' hsteps hstep ih =>
    obtain ⟨code, hcode, hcalls⟩ := ih.code
    obtain ⟨slots, added, hextends, hemitted⟩ := hstep.emits
    have hpersists := hstep.persists
    have hdeclares : Declares ctx g.state := Steps.invariant SameLinkage.declares
      (fun _ hmove => hmove.declares) hsteps hg₁ hs
    have hlength : ctx.naming.initialized.length ≤ g.state.builder.func.instrs.length := by
      have hinstrs : g.state.builder.func.instrs = g.code := (Steps.sound hsteps hg₁).instrs
      rw [hinstrs, Stage.code, hcode]
      simp only [length_append]
      omega
    refine ⟨hstep.head_calls ih.slots, code ++ added, ?_, fun dst ret callee args hcall => ?_⟩
    · rw [hextends.bodyCode, hcode, append_assoc]
    · refine Called.mono ?_ hpersists.routines hpersists.uses
      rcases mem_append.mp hcall with hcall | hcall
      · exact hcalls dst ret callee args hcall
      · exact (hemitted _ (mem_append_right _ hcall)).called_of_callable hdeclares
          fun _ => called_of_length_le hlength

theorem Performs.steps {R : Stage → Stage → Prop} {m : Lower Unit} (h : Performs ctx P R m) :
    Performs ctx P (Steps ctx P) m :=
  fun g hready => (h g hready).mono fun _ _ hsteps hR => ⟨hR.1, hsteps⟩

theorem releaseAll_state (entries : List Cleanup) : ∀ g : Stage,
    (g.releaseAll entries).state.functions = g.state.functions ∧
      (g.releaseAll entries).state.externals = g.state.externals := by
  induction entries with
  | nil => exact fun _ => ⟨rfl, rfl⟩
  | cons e rest ih => exact fun g => ih (g.release e)

/-- The end of a program calls what any function may call. -/
theorem Exits.called {t : Instr} (h : Exits ctx g g' t) (htracks : Tracks ctx g.state)
    (hs : Declares ctx g.state) :
    g'.state.functions = g.state.functions ∧ g'.state.externals = g.state.externals ∧
      ∃ code, (g'.effect t).code = g.head ++ (g.bodyCode ++ code) ∧
        ∀ dst ret callee args, .call dst ret callee args ∈ code →
          Called ctx .function g.state.functions g.state.externals.functions ret callee
            (args.map (·.ty)) := by
  obtain ⟨hhead, hbody, -⟩ := h.layout htracks
  obtain ⟨-, hg', -⟩ := h.program htracks
  obtain ⟨hfunctions, hexternals⟩ :=
    releaseAll_state g.state.cleanup (g.goto (.br exitLabel) exitLabel)
  rw [hg']
  refine ⟨hfunctions, hexternals, ?_⟩
  rw [← hg']
  refine ⟨.br exitLabel :: freeing g.next g.state.cleanup ++ [.ret (some (.int .i32 0))], ?_, ?_⟩
  · rw [code, bodyCode, hhead, hbody]
    simp [bodyCode, body]
  · intro dst ret callee args hcall
    have hcatalogued : ∀ name ∈ Catalog.releasing, ⟨name, .void, [.ptr]⟩ ∈ Catalog.catalog := by
      decide +kernel
    have hfreeing : ∀ i ∈ freeing g.next g.state.cleanup, ∀ dst ret callee args,
        i = .call dst ret callee args → Called ctx .function g.state.functions
          g.state.externals.functions ret callee (args.map (·.ty)) := by
      refine forall_freeing (by simp) (fun e he r => ?_) _
      rintro dst ret callee args heq
      obtain ⟨-, rfl, rfl, rfl⟩ := Instr.call.inj heq
      exact .catalogued (hcatalogued _ (hs.freed e he))
    exact hfreeing _ (by simpa using hcall) _ _ _ _ rfl

end

end Stage

section

variable {ctx : Context} {statements : List Node} {todo : List Routine} {s : State}

/-- The entry function of a program has stack slots, then the calls of the initializers, and then
code that calls what any function may call. -/
structure CallsInits (ctx : Context) (s : State) (main : Func) (slots code : List Instr) :
    Prop where
  instrs : main.instrs = slots ++ (ctx.naming.initialized.map Stage.initCall ++ code)
  slots : ∀ i ∈ slots, i.callee? = none
  code : ∀ dst ret callee args, .call dst ret callee args ∈ code →
    Called ctx .function s.functions s.externals.functions ret callee (args.map (·.ty))

theorem callsInits_of_entryFunction (hprogram : ctx.naming.isLibrary = false)
    (h : entryFunction statements ctx (State.start ctx.target ctx.naming statements) =
      .ok ((), s)) : ∃ slots code, CallsInits ctx s s.builder.func slots code := by
  have hsame := Stage.sameCode_start ctx.target ctx.naming statements
  obtain ⟨g, t, hdone, rfl, g₁, g₂, hinits, hg₁, hsteps₂, hsteps, hexits⟩ :=
    entry_enters (p := fun _ => True) (fun _ _ => trivial)
      (performs_blockOf fun _ _ => trivial).steps h
  obtain ⟨hhead, hcode₁⟩ := hdone.origin.code_of_callInits hdone.fresh hg₁ hinits
  have hdeclares₁ : Declares ctx g₁.state := by
    have hstate : { State.start ctx.target ctx.naming statements with
        builder := (callInits ctx.naming
          (State.start ctx.target ctx.naming statements).builder).2 } = g₁.state :=
      congrArg Prod.snd (Except.ok.inj hinits)
    rw [← hstate]
    exact SameLinkage.declares (s := State.start ctx.target ctx.naming statements)
      ⟨rfl, rfl, rfl, rfl, rfl⟩ (declares_start _ _ statements _ _)
  have hfollows := Stage.Steps.follows hsteps hg₁ hdeclares₁ (by simp [hhead])
    (Nat.le_of_eq (by rw [hcode₁, length_map]))
  have hdeclares₂ : Declares ctx g₂.state := Stage.Steps.invariant SameLinkage.declares
    (fun _ hmove => hmove.declares) hsteps hg₁ hdeclares₁
  have htracks : Tracks ctx g₂.state :=
    ⟨(Stage.Steps.persists hsteps₂).mode.trans hsame.scope, hprogram⟩
  obtain ⟨hfunctions, hexternals, tail, htail, hcalled⟩ := hexits.called htracks hdeclares₂
  obtain ⟨code, hcode, hcalls⟩ := hfollows.code
  refine ⟨g₂.head, code ++ tail, ?_, hfollows.slots, fun dst ret callee args hcall => ?_⟩
  · show (g.complete t).instrs = _
    rw [hdone.instrs, htail, hcode, hcode₁, append_assoc]
  · show Called ctx .function g.state.functions g.state.externals.functions ret callee _
    rw [hfunctions, hexternals]
    exact (mem_append.mp hcall).elim (hcalls dst ret callee args) (hcalled dst ret callee args)

theorem Pending.head? (h : Pending ctx statements todo s) : ∃ s₁,
    entryFunction statements ctx (State.start ctx.target ctx.naming statements) = .ok ((), s₁) ∧
      s.assembly.functions.head? = some s₁.builder.func := by
  induction h with
  | @entry s₁ h => exact ⟨s₁, h, by simp [(entryDone h).functions]⟩
  | body before h ih =>
    obtain ⟨s₁, hentry, hhead⟩ := ih
    exact ⟨s₁, hentry, by simp [(bodyDone before h).functions, hhead]⟩

/-- The symbols of the initializers are not those of catalogued functions or of functions of the
unit. -/
def InitsApart (naming : Naming) (statements : List Node) : Prop :=
  ∀ module ∈ naming.initialized, Catalog.isCatalogued (initSymbol module) = false ∧
    initSymbol module ∉ definedSymbols naming statements

variable {main : Func} {slots code : List Instr}

theorem CallsInits.calls_eq (h : CallsInits ctx s main slots code) :
    main.calls = ctx.naming.initialized.map initSymbol ++ code.filterMap Instr.callee? := by
  have hslots : slots.filterMap Instr.callee? = [] := filterMap_eq_nil_iff.mpr h.slots
  rw [Func.calls, h.instrs, filterMap_append, filterMap_append, hslots, nil_append,
    filterMap_map]
  congr 1
  exact congrFun (filterMap_eq_map (f := initSymbol)) _

theorem exists_call_of_mem {callee : String} (h : callee ∈ code.filterMap Instr.callee?) :
    ∃ dst ret args, .call dst ret callee args ∈ code := by
  obtain ⟨i, hi, hcallee⟩ := mem_filterMap.mp h
  cases i <;> simp only [Instr.callee?, reduceCtorEq, Option.some.injEq] at hcallee
  subst hcallee
  exact ⟨_, _, _, hi⟩

theorem CallsInits.notMem_of_apart (h : CallsInits ctx s main slots code)
    (hpending : Pending ctx statements todo s) (hapart : InitsApart ctx.naming statements)
    {module : String} (hmodule : module ∈ ctx.naming.initialized) :
    initSymbol module ∉ code.filterMap Instr.callee? := by
  intro hmem
  obtain ⟨huncatalogued, hundefined⟩ := hapart module hmodule
  obtain ⟨dst, ret, args, hcall⟩ := exists_call_of_mem hmem
  have hcalled := h.code _ _ _ _ hcall
  generalize hcallee : initSymbol module = callee, args.map (·.ty) = types
    at hcalled huncatalogued hundefined
  cases hcalled with
  | initializer mem top => cases top
  | @catalogued e mem =>
    have hcatalogued := mem_catalog_names.mp (mem_map_of_mem mem)
    rw [huncatalogued] at hcatalogued
    cases hcatalogued
  | @routine r mem =>
    rw [hpending.entered.functions] at mem
    have hfirst := ((mem_noteAll mem).resolve_left not_mem_nil).2
    refine hundefined (mem_cons_of_mem _ (mem_map_of_mem ?_))
    exact mem_of_find?_eq_some hfirst
  | @external _ arity mem =>
    refine hpending.declares.foreign (callee, arity) mem ?_
    rw [← hcallee]
    exact (mem_declare_foldl (fun module => ⟨initSymbol module, .void, []⟩)
      ctx.naming.initialized _).2 module hmodule

/-- Where the calls of the entry function keep the rules, no initializer is called again: each of
them is called by the type of an initializer, which no other function has. -/
theorem CallsInits.notMem_of_conforms (h : CallsInits ctx s main slots code) {a : Assembly}
    (hmain : main.Conforms a) {module : String} (hmodule : module ∈ ctx.naming.initialized) :
    initSymbol module ∉ code.filterMap Instr.callee? := by
  intro hmem
  have hfirst : .call none .void (initSymbol module) [] ∈ main.instrs := by
    rw [h.instrs, mem_append, mem_append]
    exact .inr (.inl (mem_map_of_mem hmodule))
  obtain ⟨dst, ret, args, hcall⟩ := exists_call_of_mem hmem
  have hagain : .call dst ret (initSymbol module) args ∈ main.instrs := by
    rw [h.instrs, mem_append, mem_append]
    exact .inr (.inr hcall)
  obtain ⟨signature, hsignature, hparams, hret⟩ := hmain.calls _ _ _ _ hfirst
  obtain ⟨other, hother, hparams', hret'⟩ := hmain.calls _ _ _ _ hagain
  obtain rfl : signature = other := Option.some.inj (hsignature.symm.trans hother)
  have hvoid : ret = .void := hret'.symm.trans hret
  have hnone : args.map (·.ty) = [] := hparams'.symm.trans hparams
  have hcalled := h.code _ _ _ _ hcall
  rw [hvoid, hnone] at hcalled
  generalize initSymbol module = callee at hcalled
  generalize hty : Ty.void = ty, hargs : ([] : List Ty) = types at hcalled
  cases hcalled with
  | initializer mem top => cases top
  | @catalogued e mem =>
    -- Every catalogued function takes something.
    have htakes : ∀ e ∈ Catalog.catalog, e.params ≠ [] := by decide +kernel
    exact htakes e mem (map_eq_nil_iff.mp hargs.symm)
  | routine mem => cases hty
  | external mem => cases hty

theorem initSymbol_injective : Function.Injective initSymbol :=
  fun _ _ h => (String.append_left_inj _).mp h

theorem generate_calls {target : Target} {naming : Naming} {observed : List String}
    {u : Generated} (hprogram : naming.mode = .program)
    (hu : generate target naming observed statements = .ok u)
    (hclear : (u.assembly.check false).valid = true ∨ InitsApart naming statements) :
    ∃ main rest, u.assembly.functions.head? = some main ∧ main.name = "main" ∧
      main.calls = naming.importedModules.map initSymbol ++ rest ∧
      ∀ module ∈ naming.importedModules, initSymbol module ∉ rest := by
  obtain ⟨s, hpending, rfl⟩ := generate_pending rfl hu
  obtain ⟨s₁, hentry, hhead⟩ := hpending.head?
  have hinitialized : naming.initialized = naming.importedModules := by
    rw [Naming.initialized, hprogram]
  obtain ⟨slots, code, hcalls⟩ := callsInits_of_entryFunction
    (show naming.isLibrary = false by rw [Naming.isLibrary, hprogram]) hentry
  have hname : s₁.builder.func.name = "main" := by
    refine (entryDone hentry).name.trans ?_
    show naming.entrySymbol = _
    rw [Naming.entrySymbol, hprogram]
  have hfirst : s₁.builder.func.calls =
      naming.initialized.map initSymbol ++ code.filterMap Instr.callee? := hcalls.calls_eq
  rw [← hinitialized]
  refine ⟨s₁.builder.func, _, hhead, hname, hfirst, fun module hmodule => ?_⟩
  rcases hclear with hvalid | hapart
  · have hmem := mem_of_mem_head? (Option.mem_def.mpr hhead)
    exact hcalls.notMem_of_conforms (Assembly.conforms_of_valid hvalid _ hmem) hmodule
  · exact hcalls.notMem_of_apart (Pending.entry hentry) hapart hmodule

end

end Lowering

/-! ## Compiled programs -/

open Lowering in
/-- The calls of a compiled program begin with those of the initializers, and no other call is of
one of them. The modules of the options come as they are listed, so that a module is initialized as
often as it is listed there; the unit adds its own at their first occurrence. Where the caller
declines the check, a function of the unit may have the symbol of an initializer. -/
theorem calls_main_of_compile {options : Options} {u : SourceUnit} {c : Compiled}
    (h : compile options u = .ok c) (hprogram : options.modeFor u = .program)
    (hclear : options.verify = true ∨ InitsApart (options.mergedWith u).naming u.statements) :
    ∃ main rest, c.assembly.functions.head? = some main ∧ main.name = "main" ∧
      main.calls = (options.importedModules ++
        (u.imported.removeAll options.importedModules).eraseDups).map initSymbol ++ rest ∧
      (∀ module ∈ options.importedModules ++ u.imported, initSymbol module ∉ rest ∧
        main.countCalls (initSymbol module) = max 1 (options.importedModules.count module)) ∧
      (options.importedModules.Nodup → main.calls =
        (options.importedModules ++ u.imported).eraseDups.map initSymbol ++ rest) := by
  obtain ⟨g, hg, hassembly, hvalid⟩ := lowered_of_compile h
  obtain ⟨main, rest, hhead, hname, hcalls, hrest⟩ :=
    generate_calls hprogram hg (hclear.imp_left hvalid)
  have hmodules : (options.mergedWith u).naming.importedModules =
      Text.addNew options.importedModules u.imported := importedModules_mergedWith options u
  rw [hmodules] at hcalls hrest
  refine ⟨main, rest, hassembly ▸ hhead, hname, ?_, fun module hmodule => ?_, fun hnodup => ?_⟩
  · rw [hcalls, Text.addNew_eq]
  · have hmem : module ∈ Text.addNew options.importedModules u.imported :=
      Text.mem_addNew.mpr (mem_append.mp hmodule)
    refine ⟨hrest module hmem, ?_⟩
    rw [Ir.Func.countCalls, hcalls, count_append, count_eq_zero.mpr (hrest module hmem),
      count_map_of_injective _ _ initSymbol_injective]
    exact Text.count_addNew hmem
  · rw [hcalls, Text.eraseDups_eq_addNew, Text.addNew_append, Text.addNew_nil_of_nodup hnodup]

/-- A program that imports two modules, one of them twice, and prints. -/
def importing : SourceUnit where
  imports := [⟨"geometry", none⟩]
  statements := [.importModule "statistics", .importModule "geometry",
    .assignment "x" (.literal (.number .one)), .relation (.identifier "print") (.identifier "x")]

theorem calls_main_importing : ∃ c main rest,
    compile { importedModules := ["control"] } importing = .ok c ∧
      c.assembly.functions.head? = some main ∧
      main.calls = ["control_init", "geometry_init", "statistics_init"] ++ rest ∧
      main.countCalls "geometry_init" = 1 := by
  obtain ⟨c, hc, -⟩ := exists_compile { importedModules := ["control"] } importing (fun _ => true)
    (by decide +kernel)
  obtain ⟨main, rest, hhead, -, hcalls, hcount, -⟩ := calls_main_of_compile hc rfl (.inl rfl)
  exact ⟨c, main, rest, hc, hhead, hcalls, (hcount "geometry" (by decide)).2⟩

/-- A module that the options list twice is initialized twice. Without the check, so is one whose
initializer has the symbol of a function of the unit that is called. -/
theorem calls_main_importedTwice :
    (∃ c main, compile { importedModules := ["a", "a"] } { statements := [] } = .ok c ∧
      c.assembly.functions.head? = some main ∧ main.calls = ["a_init", "a_init"]) ∧
    ∃ c main, compile { importedModules := ["a"], verify := false }
        { statements := [.functionDef "a_init" ["n"] [],
          .relation (.identifier "a_init") (.literal (.number .one))] } = .ok c ∧
      c.assembly.functions.head? = some main ∧ main.calls = ["a_init", "a_init"] := by
  constructor
  · obtain ⟨c, hc, htest⟩ := exists_compile { importedModules := ["a", "a"] } { statements := [] }
      (fun c => c.assembly.functions.head?.map (·.calls) = some ["a_init", "a_init"])
      (by decide +kernel)
    obtain ⟨main, hmain, hcalls⟩ := Option.map_eq_some_iff.mp (of_decide_eq_true htest)
    exact ⟨c, main, hc, hmain, hcalls⟩
  · obtain ⟨c, hc, htest⟩ := exists_compile { importedModules := ["a"], verify := false }
      { statements := [.functionDef "a_init" ["n"] [],
        .relation (.identifier "a_init") (.literal (.number .one))] }
      (fun c => c.assembly.functions.head?.map (·.calls) = some ["a_init", "a_init"])
      (by decide +kernel)
    obtain ⟨main, hmain, hcalls⟩ := Option.map_eq_some_iff.mp (of_decide_eq_true htest)
    exact ⟨c, main, hc, hmain, hcalls⟩

end ScriptCompiler
