import Mathlib.Data.List.Induction
import Mathlib.Data.List.Nodup
import ScriptCompiler.Proofs.Clashes
import ScriptCompiler.Proofs.Dominance

/-!
# What a valid verdict leaves open

The check goes by what it has seen so far, and there are two things that it never compares.

A name that is declared may be defined as a function as well. All other clashes of two symbols are
faults, so an accepted assembly gives every symbol one owner exactly when none is redeclared
(`oneOwner_iff_of_valid`). A library can have such a symbol, since its functions do not give way to
the catalog. Which symbols of a unit can be redeclared is said by `Unguarded`.

An operand that is a register states a type, which is held against the instruction that reads it and
not against the definition. The definition is there, above the reader, and is the only one, unless
parameters share a register; that they do not, and that the types agree, is the work of the lowering
(`annotates_of_generate`).
-/

namespace ScriptCompiler

open List

namespace Ir

/-! ## Owners of symbols -/

namespace Assembly

/-- Every symbol is one global, one declaration or one function. -/
def OneOwner (a : Assembly) : Prop :=
  (a.globals.map (·.name) ++ a.declarations.map (·.name) ++ a.functions.map (·.name)).Nodup

/-- The symbols of functions that are declared as well. -/
def redeclared (a : Assembly) : List String :=
  (a.functions.map (·.name)).filter (· ∈ a.declarations.map (·.name))

variable {a : Assembly} {strict : Bool}

theorem faults_of_valid (h : (a.check strict).valid = true) : a.faults = [] := by
  have hvalid : (a.faults.isEmpty && (!strict || a.warnings.isEmpty)) = true := h
  simp only [Bool.and_eq_true, List.isEmpty_iff] at hvalid
  exact hvalid.1

theorem conforms_of_valid (h : (a.check strict).valid = true) :
    ∀ f ∈ a.functions, f.Conforms a := by
  intro f hf
  obtain ⟨hsymbols, hfunctions⟩ := append_eq_nil_iff.mp (faults_of_valid h)
  obtain ⟨hdefined, hdeclared, -⟩ := symbolFaults_eq_nil_iff.mp hsymbols
  have hnone := flatMap_eq_nil_iff.mp hfunctions f hf
  exact (functionFaults_eq_nil_iff hdefined hdeclared).mp hnone

theorem distinct_of_valid (h : (a.check strict).valid = true) :
    (a.globals.map (·.name) ++ a.functions.map (·.name)).Nodup ∧
      (a.globals.map (·.name) ++ a.declarations.map (·.name)).Nodup := by
  have hsymbols := (append_eq_nil_iff.mp (faults_of_valid h)).1
  obtain ⟨hdefined, hdeclared, hapart⟩ := symbolFaults_eq_nil_iff.mp hsymbols
  refine ⟨hdefined, nodup_append.mpr ⟨(nodup_append.mp hdefined).1, hdeclared, ?_⟩⟩
  rintro name hglobal other hother rfl
  obtain ⟨d, hd, hname⟩ := mem_map.mp hglobal
  obtain ⟨s, hs, rfl⟩ := mem_map.mp hother
  exact hapart s hs d hd hname.symm

theorem oneOwner_iff_of_valid (h : (a.check strict).valid = true) :
    a.OneOwner ↔ a.redeclared = [] := by
  obtain ⟨hdefined, hdeclared⟩ := distinct_of_valid h
  obtain ⟨-, hfunctions, hglobals⟩ := nodup_append.mp hdefined
  rw [OneOwner, nodup_append, redeclared, filter_eq_nil_iff]
  constructor
  · rintro ⟨-, -, hapart⟩ name hname hmem
    exact hapart name (mem_append_right _ (of_decide_eq_true hmem)) name hname rfl
  · refine fun hnone => ⟨hdeclared, hfunctions, ?_⟩
    rintro name hname other hother rfl
    rcases mem_append.mp hname with hglobal | hname
    · exact hglobals name hglobal name hother rfl
    · exact hnone name hother (decide_eq_true hname)

end Assembly

/-! ## Definitions of registers -/

namespace Func

/-- A register is a parameter, or the result of an instruction, of the given type. -/
def Defines (f : Func) (r : Reg) (ty : Ty) : Prop :=
  (r, ty) ∈ f.params ∨ ∃ i ∈ f.instrs, i.dst? = some r ∧ i.resultType? = some ty

/-- Every operand that is a register states the type of its definition. -/
def Annotates (f : Func) : Prop :=
  ∀ i ∈ f.instrs, ∀ v ∈ i.operands, ∀ r, v.op = .reg r → f.Defines r v.ty

end Func

theorem Instr.resultType?_of_dst? {i : Instr} {r : Reg} (h : i.dst? = some r) :
    ∃ ty, i.resultType? = some ty := by
  cases i <;> simp_all [Instr.dst?, Instr.resultType?]

/-- Where no instruction defines a register that is defined above it, each register is defined
once. -/
theorem nodup_registers {defined : List Reg} {code : List Instr}
    (h : ∀ above i below, code = above ++ i :: below →
      ∀ r, i.dst? = some r → ¬ (r ∈ defined ∨ DefinedIn above r)) : (registers code).Nodup := by
  induction code using List.reverseRecOn with
  | nil => exact nodup_nil
  | append_singleton above i ih =>
    have hbefore := ih fun above' j below hsplit => h above' j (below ++ [i]) (by simp [hsplit])
    have hlast := h above i [] rfl
    rw [registers, filterMap_append]
    cases hdst : i.dst? with
    | none => simpa [hdst, registers] using hbefore
    | some r =>
      have hnew : r ∉ registers above := fun hmem =>
        hlast r hdst (.inr (mem_filterMap.mp hmem))
      have hsingle : [i].filterMap Instr.dst? = [r] := by simp [hdst]
      rw [hsingle]
      exact nodup_append.mpr ⟨hbefore, nodup_singleton r, by
        rintro x hx y hy rfl
        exact hnew (mem_singleton.mp hy ▸ hx)⟩

theorem eq_of_dst?_eq {code : List Instr} (h : (registers code).Nodup) {i j : Instr} (hi : i ∈ code)
    (hj : j ∈ code) {r : Reg} (hir : i.dst? = some r) (hjr : j.dst? = some r) : i = j := by
  by_contra hne
  have hsymm : Std.Symm fun i j : Instr => ∀ a, i.dst? = some a → ∀ b, j.dst? = some b → a ≠ b :=
    ⟨fun _ _ h a ha b hb heq => h b hb a ha heq.symm⟩
  have hpair := pairwise_filterMap.mp h
  exact hpair.forall hi hj hne r hir r hjr rfl

/-- A register that is read is a parameter, which no instruction defines, or it is defined by one
instruction, which stands above the reader. -/
def Func.DefinesOnce (f : Func) (above : List Instr) (r : Reg) : Prop :=
  r ∈ f.paramRegs ∧ r ∉ registers f.instrs ∨
    r ∉ f.paramRegs ∧ r ∈ registers above ∧ (registers f.instrs).count r = 1

/-- What a register is read as is open, but where it is defined is not. -/
theorem Func.Conforms.definesOnce {a : Assembly} {f : Func} (h : f.Conforms a)
    {above below : List Instr} {i : Instr} (hsplit : f.instrs = above ++ i :: below) {v : Value}
    (hv : v ∈ i.operands) {r : Reg} (hr : v.op = .reg r) : f.DefinesOnce above r := by
  have honce : (Ir.registers f.instrs).Nodup :=
    nodup_registers fun above i below hsplit => (h.registers above i below hsplit).2
  have hapart : r ∈ Ir.registers f.instrs → r ∉ f.paramRegs := by
    intro hmem hparam
    obtain ⟨j, hj, hjr⟩ := mem_filterMap.mp hmem
    obtain ⟨above', below', hsplit'⟩ := append_of_mem hj
    exact (h.registers above' j below' hsplit').2 r hjr (.inl hparam)
  rcases (h.registers above i below hsplit).1 v hv r hr with hparam | hdefined
  · exact .inl ⟨hparam, fun hmem => hapart hmem hparam⟩
  · have habove : r ∈ Ir.registers above := mem_filterMap.mpr hdefined
    have hmem : r ∈ Ir.registers f.instrs := by
      rw [hsplit, Ir.registers, filterMap_append]
      exact mem_append_left _ habove
    exact .inr ⟨hapart hmem, habove, count_eq_one_of_mem honce hmem⟩

/-- With distinct parameters, a register that is defined in one place has one type. -/
theorem Func.DefinesOnce.existsUnique {f : Func} {above : List Instr} {r : Reg}
    (h : f.DefinesOnce above r) (honce : (registers f.instrs).Nodup) (hparams : f.paramRegs.Nodup) :
    ∃! ty, f.Defines r ty := by
  rcases h with ⟨hparam, hnone⟩ | ⟨hnone, -, hcount⟩
  · obtain ⟨p, hp, rfl⟩ := mem_map.mp hparam
    refine ⟨p.2, .inl hp, ?_⟩
    rintro ty (hty | ⟨j, hj, hjr, -⟩)
    · exact congrArg Prod.snd (inj_on_of_nodup_map hparams hty hp rfl)
    · exact absurd (mem_filterMap.mpr ⟨j, hj, hjr⟩) hnone
  · obtain ⟨j, hj, hjr⟩ := mem_filterMap.mp (count_pos_iff.mp (hcount ▸ Nat.one_pos))
    obtain ⟨ty, hty⟩ := Instr.resultType?_of_dst? hjr
    refine ⟨ty, .inr ⟨j, hj, hjr, hty⟩, ?_⟩
    rintro ty' (hparam | ⟨k, hk, hkr, hty'⟩)
    · exact absurd (mem_map.mpr ⟨_, hparam, rfl⟩) hnone
    · rw [eq_of_dst?_eq honce hk hj hkr hjr, hty] at hty'
      exact (Option.some.inj hty').symm

end Ir

namespace Lowering

open Ir
open Numeric (assignedAll)

theorem annotates_of_generate {target : Target} {naming : Naming} {observed : List String}
    {statements : List Node} {u : Generated}
    (hu : generate target naming observed statements = .ok u) :
    ∀ f ∈ u.assembly.functions, f.paramRegs.Nodup ∧ f.Annotates := by
  intro f hf
  obtain ⟨start, g, t, h, rfl, -⟩ := (Stage.generate_functions hu).2 f hf
  refine ⟨h.written.params.1, fun i hi v hv r hr => ?_⟩
  obtain ⟨above, below, hsplit⟩ := append_of_mem hi
  have hscoped := h.scoped_instrs
  rw [hsplit] at hscoped
  rcases mem_append.mp (hscoped.at v hv r hr) with hparam | habove
  · exact .inl hparam
  · obtain ⟨j, hj, hdef⟩ := mem_typing habove
    exact .inr ⟨j, hsplit ▸ mem_append_left _ hj, hdef⟩

/-! ## Symbols that a unit may redeclare -/

/-- A symbol of a function that nothing keeps from being declared as well. -/
inductive Unguarded (naming : Naming) (statements : List Node) (symbol : String) : Prop where
  /-- It is the symbol of a catalogued function, which the functions of a library do not give way
  to. -/
  | catalogued (library : naming.isLibrary = true) (mem : Catalog.isCatalogued symbol = true)
  /-- It is the symbol of the initializer of an imported module. -/
  | initializer (module : String) (mem : module ∈ naming.initialized)
      (eq : symbol = initSymbol module)
  /-- Code at top level may take it as a symbol of another module before it is defined. -/
  | late (mem : symbol ∈ lateSymbols naming statements)
      (taken : naming.mayImport symbol = true ∨
        ∃ name ∈ assignedAll statements, naming.exportSymbol? name = some symbol)

section

variable {ctx : Context} {statements : List Node} {todo : List Routine} {s : State}

theorem isLibrary_of_isCatalogued {naming : Naming} {symbol : String}
    (hmem : symbol ∈ definedSymbols naming statements) (h : Catalog.isCatalogued symbol = true) :
    naming.isLibrary = true := by
  cases hmode : naming.mode with
  | library module => simp [Naming.isLibrary, hmode]
  | program =>
    exfalso
    rcases mem_cons.mp hmem with rfl | hmem
    · rw [Naming.entrySymbol, hmode] at h
      exact absurd h (by decide +kernel)
    · obtain ⟨r, hr, rfl⟩ := mem_map.mp hmem
      rw [(mem_unitDefinitions hr).1, Naming.functionSymbol, hmode] at h
      dsimp only at h
      split at h
      case isTrue =>
        have hdotless : ∀ name ∈ Catalog.catalog.map (·.name), Dotless name := by
          unfold Dotless
          decide +kernel
        exact hdotless _ (mem_catalog_names.mpr h) (by simp [String.toList_append])
      case isFalse hfree => simp_all

theorem unguarded_of_start {symbol : String}
    (h : symbol ∈ (State.start ctx.target ctx.naming statements).assembly.dataSymbols)
    (hmem : symbol ∈ definedSymbols ctx.naming statements) :
    Unguarded ctx.naming statements symbol := by
  rcases declared_of_start h with h | h
  · exact .catalogued (isLibrary_of_isCatalogued hmem h) h
  · obtain ⟨module, hmodule, rfl⟩ := mem_map.mp h
    exact .initializer module hmodule rfl

theorem Takes.unguarded_of_start {symbol : String}
    (h : Takes ctx (assignedAll statements) (State.start ctx.target ctx.naming statements) symbol)
    (hplain : ctx.naming.IsPlain) (hnames : ∀ name ∈ Node.namesAll statements, Dotless name)
    (hdotless : Dotless symbol) (hmem : symbol ∈ definedSymbols ctx.naming statements) :
    Unguarded ctx.naming statements symbol := by
  cases h with
  | constant k => exact absurd hdotless (not_dotless_constantSymbol k)
  | noted k => exact absurd hdotless (not_dotless_cleanupSymbol k)
  | @storage name top mem =>
    have hname := hnames name (assignedAll_subset_namesAll statements mem)
    exact absurd hdotless (not_dotless_globalSymbol hplain hname)
  | word unnoted undefined allowed =>
    exact .late (mem_lateSymbols hmem unnoted) (allowed scope_start)

/-- A symbol without dots that is taken, and is that of a function too, is one that nothing keeps
from it. The bodies of functions add none, since every function has its symbol by then. -/
theorem Pending.unguarded (h : Pending ctx statements todo s) (hplain : ctx.naming.IsPlain)
    (hnames : ∀ name ∈ Node.namesAll statements, Dotless name) :
    ∀ symbol ∈ s.assembly.dataSymbols, Dotless symbol →
      symbol ∈ definedSymbols ctx.naming statements → Unguarded ctx.naming statements symbol := by
  induction h with
  | @entry s h =>
    intro symbol hsymbol hdotless hmem
    rcases (linked_entryFunction h).symbols symbol hsymbol with hstart | htakes
    · exact unguarded_of_start hstart hmem
    · exact htakes.unguarded_of_start hplain hnames hdotless hmem
  | @body r rest s s' before h ih =>
    intro symbol hsymbol hdotless hmem
    rcases (before.linked h).symbols symbol hsymbol with hbefore | htakes
    · exact ih symbol hbefore hdotless hmem
    · exact absurd hmem (htakes.notMem_of_enter before hplain hnames)

theorem unguarded_of_mem_redeclared {target : Target} {naming : Naming} {observed : List String}
    {u : Generated} (hu : generate target naming observed statements = .ok u)
    (hplain : naming.IsPlain) (hnames : ∀ name ∈ Node.namesAll statements, Dotless name) :
    ∀ symbol ∈ u.assembly.redeclared, Unguarded naming statements symbol := by
  intro symbol hsymbol
  obtain ⟨s, hpending, rfl⟩ := generate_pending rfl hu
  obtain ⟨hfunction, hdeclared⟩ := mem_filter.mp hsymbol
  have hdeclared := of_decide_eq_true hdeclared
  obtain ⟨signature, hmem, rfl⟩ := mem_map.mp hdeclared
  exact hpending.unguarded hplain hnames signature.name (mem_append_right _ hdeclared)
    ((hpending.defines hplain hnames).dotless signature hmem)
    (hpending.functions_subset_definedSymbols hfunction)

end

end Lowering

/-! ## The verdict -/

/-- Of the six ways in which two symbols can clash, a valid verdict excludes five, so that each
symbol has one owner exactly when none is redeclared. Where the assembly is that of a unit, only
unguarded symbols are redeclared. -/
theorem symbols_of_valid (a : Ir.Assembly) (strict : Bool) (h : (a.check strict).valid = true) :
    (a.globals.map (·.name) ++ a.functions.map (·.name)).Nodup ∧
    (a.globals.map (·.name) ++ a.declarations.map (·.name)).Nodup ∧
    (a.OneOwner ↔ a.redeclared = []) ∧
    ∀ (options : Options) (u : SourceUnit) (c : Compiled), compile options u = .ok c →
      c.assembly = a → (options.mergedWith u).naming.IsPlain →
      (∀ name ∈ Node.namesAll u.statements, Dotless name) →
      ∀ symbol ∈ a.redeclared,
        Lowering.Unguarded (options.mergedWith u).naming u.statements symbol := by
  obtain ⟨hdefined, hdeclared⟩ := Ir.Assembly.distinct_of_valid h
  refine ⟨hdefined, hdeclared, Ir.Assembly.oneOwner_iff_of_valid h, ?_⟩
  rintro options u c hc rfl hplain hnames
  obtain ⟨g, hg, hassembly, -⟩ := lowered_of_compile hc
  rw [hassembly]
  exact Lowering.unguarded_of_mem_redeclared hg hplain hnames

theorem symbols_of_valid_givingWay :
    ∃ c, compile {} givingWay = .ok c ∧ (c.assembly.check false).valid = true ∧
      c.assembly.OneOwner ∧ ∀ symbol ∈ c.assembly.redeclared,
        Lowering.Unguarded (({} : Options).mergedWith givingWay).naming givingWay.statements
          symbol := by
  obtain ⟨c, hc, htest⟩ := exists_compile {} givingWay
    (fun c => (c.assembly.check false).valid && c.assembly.redeclared = []) (by decide +kernel)
  obtain ⟨hvalid, hnone⟩ := Bool.and_eq_true_iff.mp htest
  have hplain : (({} : Options).mergedWith givingWay).naming.IsPlain := by
    have hprogram : (({} : Options).mergedWith givingWay).naming.mode = .program := rfl
    refine ⟨fun module hmode => by simp [hprogram] at hmode, ?_⟩
    unfold Dotless
    decide +kernel
  have hnames : ∀ name ∈ Node.namesAll givingWay.statements, Dotless name := by
    unfold Dotless
    decide +kernel
  obtain ⟨-, -, howner, hunguarded⟩ := symbols_of_valid c.assembly false hvalid
  exact ⟨c, hc, hvalid, howner.mpr (of_decide_eq_true hnone),
    hunguarded {} givingWay c hc rfl hplain hnames⟩

/-- The entry function of a library named `eigen` has the symbol of a catalogued function. The
verdict is valid, and the symbol is both declared and defined. -/
theorem redeclared_of_valid_eigen :
    ∃ c, compile { mode := .library "eigen" } { statements := [] } = .ok c ∧
      (c.verdict.map (·.valid)) = some true ∧ c.assembly.redeclared = ["eigen_init"] := by
  obtain ⟨c, hc, htest⟩ := exists_compile { mode := .library "eigen" } { statements := [] }
    (fun c => (c.verdict.map (·.valid)) = some true ∧ c.assembly.redeclared = ["eigen_init"])
    (by decide +kernel)
  exact ⟨c, hc, of_decide_eq_true htest⟩

/-- A valid verdict makes each register that is read a parameter that nothing redefines, or the
result of one instruction, which stands above; and each operand keep the rule of its reader. So the
register has one type where the parameters are distinct, which is not looked at. Nor is it that an
operand states the type of the definition. Both hold in every function that is compiled. -/
theorem registers_of_valid :
    (∀ (a : Ir.Assembly) (strict : Bool), (a.check strict).valid = true →
      ∀ f ∈ a.functions, ∀ above i below, f.instrs = above ++ i :: below →
        i.WellTyped f.ret ∧
        (∀ dst ret callee args, i = .call dst ret callee args →
          ∃ s, a.signature? callee = some s ∧ s.params = args.map (·.ty) ∧ s.ret = ret) ∧
        ∀ v ∈ i.operands, ∀ r, v.op = .reg r →
          f.DefinesOnce above r ∧ (f.paramRegs.Nodup → ∃! ty, f.Defines r ty)) ∧
    ∀ (options : Options) (u : SourceUnit) (c : Compiled), compile options u = .ok c →
      ∀ f ∈ c.assembly.functions, f.paramRegs.Nodup ∧ f.Annotates := by
  refine ⟨fun a strict hvalid f hf above i below hsplit => ?_, fun options u c hc f hf => ?_⟩
  · have hconforms := Ir.Assembly.conforms_of_valid hvalid f hf
    have hi : i ∈ f.instrs := hsplit ▸ mem_append_right _ mem_cons_self
    refine ⟨hconforms.types i hi, ?_, fun v hv r hr => ?_⟩
    · rintro dst ret callee args rfl
      exact hconforms.calls dst ret callee args hi
    · have honce := hconforms.definesOnce hsplit hv hr
      exact ⟨honce, honce.existsUnique (Ir.nodup_registers fun above i below hsplit =>
        (hconforms.registers above i below hsplit).2)⟩
  · obtain ⟨g, hg, hassembly, -⟩ := lowered_of_compile hc
    rw [hassembly] at hf
    exact Lowering.annotates_of_generate hg f hf

theorem registers_of_valid_givingWay :
    ∃ c, compile {} givingWay = .ok c ∧ (c.assembly.check false).valid = true ∧
      ∀ f ∈ c.assembly.functions, f.Annotates ∧ ∀ i ∈ f.instrs, ∀ v ∈ i.operands,
        ∀ r, v.op = .reg r → ∃! ty, f.Defines r ty := by
  obtain ⟨c, hc, hvalid⟩ := exists_compile {} givingWay (fun c => (c.assembly.check false).valid)
    (by decide +kernel)
  refine ⟨c, hc, hvalid, fun f hf => ?_⟩
  obtain ⟨hparams, hannotates⟩ := registers_of_valid.2 {} givingWay c hc f hf
  refine ⟨hannotates, fun i hi v hv r hr => ?_⟩
  obtain ⟨above, below, hsplit⟩ := append_of_mem hi
  obtain ⟨-, -, hregisters⟩ := registers_of_valid.1 c.assembly false hvalid f hf above i below hsplit
  exact (hregisters v hv r hr).2 hparams

/-- A function that reserves a slot and returns its address as a number. -/
def addressAsNumber : Ir.Func where
  name := "f"
  params := []
  ret := .double
  blocks := [⟨"entry", [.alloca 0 .double, .ret (some (.reg 0 .double))]⟩]

/-- The verdict on it is valid. -/
theorem not_annotates_addressAsNumber :
    let a : Ir.Assembly := { name := "m", triple := "", functions := [addressAsNumber] }
    (a.check false).valid = true ∧ ¬ addressAsNumber.Annotates := by
  refine ⟨by decide +kernel, fun h => ?_⟩
  have hdefines := h (.ret (some (.reg 0 .double))) (by decide) (.reg 0 .double) (by decide) 0 rfl
  simp [Ir.Func.Defines, addressAsNumber, Ir.Func.instrs, Ir.Instr.dst?, Ir.Instr.resultType?,
    Ir.Value.reg] at hdefines

/-- A function with one register for two parameters of different types. -/
def sharedParameter : Ir.Func where
  name := "f"
  params := [(0, .i64), (0, .double)]
  ret := .i64
  blocks := [⟨"entry", [.ret (some (.reg 0 .i64))]⟩]

/-- The verdict on it is valid, though the register that is read has two types. -/
theorem defines_sharedParameter :
    let a : Ir.Assembly := { name := "m", triple := "", functions := [sharedParameter] }
    (a.check false).valid = true ∧ sharedParameter.Defines 0 .i64 ∧ sharedParameter.Defines 0 .double :=
  ⟨by decide +kernel, .inl (by decide), .inl (by decide)⟩

end ScriptCompiler
