import ScriptCompiler.Compile
import ScriptCompiler.Proofs.Calls
import ScriptCompiler.Proofs.ControlFlow
import ScriptCompiler.Proofs.Links
import ScriptCompiler.Proofs.Verdict

/-!
# Clashes of symbols

The symbols of a unit come from its entry function, from its functions, from the initializers of
imported modules, from the catalog, from exported words and from what other modules provide. A
clash of two of them ought to end the lowering with a diagnostic. It does wherever a symbol is taken
that a function has already; but the entry function is complete only after the code at top level, a
function that is defined in a branch or a loop is noted only there, and neither the catalog nor the
initializers are looked at when a function is named. `SymbolsApart` lists these clashes.

A unit with none of them never fails the check (`compile_ne_verificationFailed`). One of them is a
variable `init` of a library, whose exported word has the symbol of the entry function; the check
finds two definitions then (`compile_exportedInit`).
-/

namespace ScriptCompiler

open List

namespace Ir

/-! ## Assemblies without faults -/

namespace Assembly

variable {a : Assembly}

theorem calledSignature?_of_mem_functions {f : Func} (hf : f ∈ a.functions)
    (h : (a.functions.map (·.name)).Nodup) : a.calledSignature? f.name = some f.signature := by
  have hfind : a.functions.reverse.find? (·.name = f.name) = some f := by
    rw [find?_reverse_of_nodup h, find?_eq_some_iff_of_nodup h]
    exact ⟨hf, rfl⟩
  rw [calledSignature?, hfind]
  rfl

theorem calledSignature?_of_mem_declarations {signature : Signature}
    (hmem : signature ∈ a.declarations) (h : (a.declarations.map (·.name)).Nodup)
    (hnone : signature.name ∉ a.functions.map (·.name)) :
    a.calledSignature? signature.name = some signature := by
  have hfunction : a.functions.reverse.find? (·.name = signature.name) = none := by
    rw [List.find?_eq_none]
    intro f hf heq
    exact hnone (mem_map.mpr ⟨f, mem_reverse.mp hf, by simpa using heq⟩)
  have hfind : a.declarations.reverse.find? (·.name = signature.name) = some signature := by
    rw [find?_reverse_of_nodup h, find?_eq_some_iff_of_nodup h]
    exact ⟨hmem, rfl⟩
  rw [calledSignature?, hfunction, hfind]
  rfl

end Assembly

end Ir

namespace Lowering

open Ir
open Numeric (assigned assignedAll)

/-! ## Units without clashes -/

/-- The symbols of the functions of a unit, the entry function first. -/
def definedSymbols (naming : Naming) (statements : List Node) : List String :=
  naming.entrySymbol :: (unitDefinitions naming statements).map (·.symbol)

/-- The symbols that are free while the code before a definition is lowered: that of the entry
function, and those of the functions that are defined in branches and loops only. -/
def lateSymbols (naming : Naming) (statements : List Node) : List String :=
  naming.entrySymbol ::
    ((definitionsAll naming statements).filter fun r =>
      (topDefinitions naming statements).all (·.name ≠ r.name)).map (·.symbol)

/-- No two symbols of a unit clash in a way that lowering does not notice. -/
structure SymbolsApart (naming : Naming) (statements : List Node) : Prop where
  /-- No function has the symbol of the entry function. -/
  entry : ∀ r ∈ unitDefinitions naming statements, r.symbol ≠ naming.entrySymbol
  /-- No function has a symbol that is declared at the start. -/
  declared : ∀ symbol ∈ definedSymbols naming statements,
    Catalog.isCatalogued symbol = false ∧ symbol ∉ naming.initialized.map initSymbol
  /-- No initializer is catalogued. -/
  initializers : ∀ module ∈ naming.initialized, Catalog.isCatalogued (initSymbol module) = false
  /-- No function has the symbol of the storage of a variable. -/
  stored : ∀ symbol ∈ definedSymbols naming statements, ∀ name ∈ assignedAll statements,
    symbol ≠ naming.globalSymbol name
  /-- No symbol that is free for long is imported or exported at top level. -/
  late : ∀ symbol ∈ lateSymbols naming statements, naming.mayImport symbol = false ∧
    ∀ name ∈ assignedAll statements, naming.exportSymbol? name ≠ some symbol

/-! ## Symbols of functions -/

section

variable {naming : Naming} {statements : List Node}

mutual

theorem mem_definitions : (node : Node) → ∀ r ∈ definitions naming node,
    r.symbol = naming.functionSymbol r.name ∧ r.name ∈ node.names
  | .functionDef name params body => by simp [definitions, Node.names]
  | .conditional condition thenBlock elseBlock => by
    rw [definitions, Node.names]
    intro r hr
    rcases mem_append.mp hr with hr | hr
    · exact (mem_definitionsAll thenBlock r hr).imp_right fun h => by simp [h]
    · exact (mem_definitionsAll elseBlock r hr).imp_right fun h => by simp [h]
  | .loop condition body => by
    rw [definitions, Node.names]
    exact fun r hr => (mem_definitionsAll body r hr).imp_right fun h => by simp [h]
  | .assignment .. | .literal .. | .identifier .. | .binary .. | .unary .. | .indexedAssignment ..
  | .ret .. | .breakLoop | .listLiteral .. | .index .. | .memberAccess .. | .structDef ..
  | .structLiteral .. | .interrogative .. | .relation .. | .importModule .. => by
    simp [definitions]

theorem mem_definitionsAll : (nodes : List Node) → ∀ r ∈ definitionsAll naming nodes,
    r.symbol = naming.functionSymbol r.name ∧ r.name ∈ Node.namesAll nodes
  | [] => by simp [definitionsAll]
  | node :: rest => by
    rw [definitionsAll, Node.namesAll]
    intro r hr
    rcases mem_append.mp hr with hr | hr
    · exact (mem_definitions node r hr).imp_right (mem_append_left _)
    · exact (mem_definitionsAll rest r hr).imp_right (mem_append_right _)

end

theorem topDefinitions_subset :
    topDefinitions naming statements ⊆ definitionsAll naming statements := by
  induction statements with
  | nil => simp [topDefinitions]
  | cons node rest ih =>
    rw [topDefinitions, flatMap_cons, definitionsAll]
    refine append_subset.mpr ⟨?_, List.Subset.trans ih (subset_append_right _ _)⟩
    split
    · exact subset_append_left _ _
    · simp

theorem mem_unitDefinitions {r : Routine} (hr : r ∈ unitDefinitions naming statements) :
    r.symbol = naming.functionSymbol r.name ∧ r.name ∈ Node.namesAll statements := by
  rcases mem_append.mp hr with hr | hr
  · exact mem_definitionsAll statements r (topDefinitions_subset hr)
  · exact mem_definitionsAll statements r hr

theorem functionSymbol_inj {name name' : String} (hname : Dotless name) (hname' : Dotless name')
    (h : naming.functionSymbol name = naming.functionSymbol name') : name = name' := by
  -- A function that gives way has a dot in its symbol, and the others have none.
  have huser : ∀ {text other : String}, Dotless other → text ++ ".user" ≠ other := by
    rintro text _ hother rfl
    exact hother (by simp [String.toList_append])
  unfold Naming.functionSymbol at h
  cases hmode : naming.mode with
  | library module =>
    rw [hmode] at h
    exact String.append_right_inj _ |>.mp h
  | program =>
    rw [hmode] at h
    dsimp only at h
    split at h <;> split at h
    · exact String.append_left_inj _ |>.mp h
    · exact absurd h (huser hname')
    · exact absurd h.symm (huser hname)
    · exact h

/-- The symbol of a function is made of identifiers, unless the function gives way to the entry point
or to a catalogued function. -/
theorem dotless_or_user (hplain : naming.IsPlain)
    (hnames : ∀ name ∈ Node.namesAll statements, Dotless name) {symbol : String}
    (h : symbol ∈ definedSymbols naming statements) :
    Dotless symbol ∨ ∃ name ∈ "main" :: Catalog.catalog.map (·.name), symbol = name ++ ".user" := by
  rcases mem_cons.mp h with rfl | h
  · refine .inl ?_
    unfold Naming.entrySymbol
    split
    · unfold Dotless; decide
    case h_2 module hmode =>
      have hmodule : '.' ∉ module.toList := hplain.own module hmode
      rw [Dotless, initSymbol, String.toList_append]
      simpa using hmodule
  · obtain ⟨r, hr, rfl⟩ := mem_map.mp h
    obtain ⟨hsymbol, hname⟩ := mem_unitDefinitions hr
    rw [hsymbol]
    unfold Naming.functionSymbol
    split
    case h_1 module hmode =>
      have hexternal := hplain.own module hmode
      exact .inl (dotless_of_isExternal (.inr ⟨module, _, hexternal, hnames _ hname, rfl⟩))
    case h_2 =>
      split
      case isTrue htaken =>
        refine .inr ⟨r.name, mem_cons.mpr ?_, rfl⟩
        rw [mem_catalog_names]
        simpa using htaken
      case isFalse => exact .inl (hnames _ hname)

/-- No function has the symbol of a string constant or of a noted address. -/
theorem definedSymbols_ne (hplain : naming.IsPlain)
    (hnames : ∀ name ∈ Node.namesAll statements, Dotless name) {symbol : String}
    (h : symbol ∈ definedSymbols naming statements) (k : Nat) :
    symbol ≠ constantSymbol k ∧ symbol ≠ cleanupSymbol k := by
  rcases dotless_or_user hplain hnames h with hdotless | ⟨name, hname, rfl⟩
  · exact ⟨fun heq => not_dotless_constantSymbol k (heq ▸ hdotless),
      ne_cleanupSymbol_of_dotless hdotless⟩
  · -- Both begin with other characters than the names that are reserved.
    have hheads : ∀ name ∈ "main" :: Catalog.catalog.map (·.name),
        name.toList.head?.isSome ∧ name.toList.head? ≠ some '.' ∧
          name.toList.head? ≠ some '_' := by
      decide +kernel
    obtain ⟨hsome, hdot, hunderscore⟩ := hheads name hname
    obtain ⟨c, hhead⟩ := Option.isSome_iff_exists.mp hsome
    rw [hhead] at hdot hunderscore
    have hhead : (name ++ ".user").toList.head? = some c := by
      rw [String.toList_append, List.head?_append, hhead]
      rfl
    refine ⟨fun heq => ?_, ne_cleanupSymbol_of_head hhead fun hc => hunderscore (hc ▸ rfl)⟩
    rw [heq, constantSymbol, String.toList_append] at hhead
    exact hdot hhead.symm

end

section

variable {ctx : Context} {statements : List Node} {todo : List Routine} {s : State}

theorem nodup_noteAll {rs : List Routine} : ∀ {functions : List Routine},
    (functions.map (·.name)).Nodup → ((noteAll functions rs).map (·.name)).Nodup := by
  induction rs with
  | nil => exact id
  | cons r rs ih =>
    intro functions h
    refine ih ?_
    unfold noteRoutine
    split
    case isTrue => exact h
    case isFalse hnone =>
      have hnone : ∀ q ∈ functions, q.name ≠ r.name := by simpa using hnone
      simpa [nodup_append] using ⟨h, hnone⟩

theorem exists_mem_noteRoutine {functions : List Routine} (q : Routine) {name : String}
    (h : (∃ r ∈ functions, r.name = name) ∨ q.name = name) :
    ∃ r ∈ noteRoutine functions q, r.name = name := by
  unfold noteRoutine
  split
  case isTrue hsome =>
    obtain ⟨r, hr, hname⟩ := List.find?_isSome.mp hsome
    exact h.elim id fun h => ⟨r, hr, (of_decide_eq_true hname).trans h⟩
  case isFalse =>
    rcases h with ⟨r, hr, hname⟩ | hname
    · exact ⟨r, mem_append_left _ hr, hname⟩
    · exact ⟨q, mem_append_right _ mem_cons_self, hname⟩

theorem exists_mem_noteAll {rs : List Routine} {name : String} : ∀ {functions : List Routine},
    (∃ r ∈ functions, r.name = name) ∨ (∃ r ∈ rs, r.name = name) →
      ∃ r ∈ noteAll functions rs, r.name = name := by
  induction rs with
  | nil => exact fun h => h.resolve_right (by simp)
  | cons q rs ih =>
    intro functions h
    refine ih ?_
    rcases h with h | ⟨r, hr, hname⟩
    · exact .inl (exists_mem_noteRoutine q (.inl h))
    · rcases mem_cons.mp hr with rfl | hr
      · exact .inl (exists_mem_noteRoutine _ (.inr hname))
      · exact .inr ⟨r, hr, hname⟩

/-- The functions that are complete, and those that are left, have the symbols of the entry function
and of the functions of the unit. -/
theorem Pending.functions_names (h : Pending ctx statements todo s) :
    s.assembly.functions.map (·.name) ++ todo.map (·.symbol) =
      ctx.naming.entrySymbol :: s.functions.map (·.symbol) := by
  induction h with
  | entry h =>
    have hdone := entryDone h
    rw [hdone.functions, map_singleton, hdone.name]
    rfl
  | @body r rest s s' before h ih =>
    have hdone := bodyDone before h
    have hsame : s'.functions = s.functions :=
      (Pending.body before h).entered.functions.trans before.entered.functions.symm
    have hname : s'.builder.func.name = r.symbol := congrArg Signature.name hdone.signature
    rw [hsame, ← ih, hdone.functions, map_append, map_singleton, hname]
    simp

theorem Pending.entrySymbol_mem (h : Pending ctx statements todo s) :
    ctx.naming.entrySymbol ∈ s.assembly.functions.map (·.name) := by
  induction h with
  | entry h =>
    have hdone := entryDone h
    simp [hdone.functions, hdone.name]
  | body before h ih =>
    rw [(bodyDone before h).functions, map_append]
    exact mem_append_left _ ih

theorem Pending.nodup_functions (h : Pending ctx statements [] s)
    (hnames : ∀ name ∈ Node.namesAll statements, Dotless name)
    (hapart : SymbolsApart ctx.naming statements) : (s.assembly.functions.map (·.name)).Nodup := by
  have hfunctions := h.functions_names
  rw [map_nil, append_nil, h.entered.functions] at hfunctions
  have hdefined : ∀ r ∈ noteAll [] (unitDefinitions ctx.naming statements),
      r ∈ unitDefinitions ctx.naming statements := fun r hr =>
    mem_of_find?_eq_some ((mem_noteAll hr).resolve_left not_mem_nil).2
  have hnodup : ((noteAll [] (unitDefinitions ctx.naming statements)).map (·.name)).Nodup :=
    nodup_noteAll nodup_nil
  rw [hfunctions, nodup_cons]
  refine ⟨fun hmem => ?_, List.Nodup.map_on (fun r hr q hq heq => ?_) hnodup.of_map⟩
  · obtain ⟨r, hr, hsymbol⟩ := mem_map.mp hmem
    exact hapart.entry r (hdefined r hr) hsymbol
  · obtain ⟨hr', hrname⟩ := mem_unitDefinitions (hdefined r hr)
    obtain ⟨hq', hqname⟩ := mem_unitDefinitions (hdefined q hq)
    have hname : r.name = q.name := functionSymbol_inj (hnames _ hrname) (hnames _ hqname)
      (by rw [← hr', ← hq', heq])
    exact inj_on_of_nodup_map hnodup hr hq hname

theorem scope_start : (State.start ctx.target ctx.naming statements).scope = .topLevel := by
  obtain ⟨structs, hstart⟩ := start_eq ctx.target ctx.naming statements
  rw [hstart]

theorem declared_of_start {symbol : String}
    (h : symbol ∈ (State.start ctx.target ctx.naming statements).assembly.dataSymbols) :
    Catalog.isCatalogued symbol = true ∨ symbol ∈ ctx.naming.initialized.map initSymbol := by
  obtain ⟨structs, hstart⟩ := start_eq ctx.target ctx.naming statements
  have hglobals := (Stage.start_assembly ctx.target ctx.naming statements).2
  rw [Assembly.dataSymbols, hglobals, map_nil, nil_append, hstart] at h
  exact (mem_append.mp (names_emptyAssembly_subset _ _ h)).imp_left mem_catalog_names.mp

theorem notMem_definedSymbols_of_start (hapart : SymbolsApart ctx.naming statements)
    {symbol : String}
    (h : symbol ∈ (State.start ctx.target ctx.naming statements).assembly.dataSymbols) :
    symbol ∉ definedSymbols ctx.naming statements := by
  intro hmem
  obtain ⟨hcatalogued, hinitializer⟩ := hapart.declared symbol hmem
  rcases declared_of_start h with h | h
  · rw [hcatalogued] at h
    exact absurd h (by decide)
  · exact hinitializer h

theorem exists_noted {rs : List Routine} (hrs : rs ⊆ unitDefinitions ctx.naming statements)
    {r : Routine} (hr : r ∈ unitDefinitions ctx.naming statements)
    (hname : ∃ q ∈ rs, q.name = r.name) : ∃ q ∈ noteAll [] rs, q.symbol = r.symbol := by
  obtain ⟨q, hq, hname⟩ := exists_mem_noteAll (.inr hname)
  have hdefined : q ∈ rs :=
    mem_of_find?_eq_some ((mem_noteAll hq).resolve_left not_mem_nil).2
  refine ⟨q, hq, ?_⟩
  rw [(mem_unitDefinitions (hrs hdefined)).1, (mem_unitDefinitions hr).1, hname]

/-- The symbol of a function that is defined at top level is not free at the start, and any other is
late. -/
theorem mem_lateSymbols {symbol : String} (hmem : symbol ∈ definedSymbols ctx.naming statements)
    (hfree : ∀ q ∈ (State.start ctx.target ctx.naming statements).functions, q.symbol ≠ symbol) :
    symbol ∈ lateSymbols ctx.naming statements := by
  rcases mem_cons.mp hmem with rfl | hmem
  · exact mem_cons_self
  obtain ⟨r, hr, rfl⟩ := mem_map.mp hmem
  obtain ⟨structs, hstart⟩ := start_eq ctx.target ctx.naming statements
  rw [hstart] at hfree
  have hnone : ∀ q ∈ topDefinitions ctx.naming statements, q.name ≠ r.name := by
    intro q hq hname
    obtain ⟨q', hq', hsymbol⟩ := exists_noted (subset_append_left _ _) hr ⟨q, hq, hname⟩
    exact hfree q' hq' hsymbol
  have hbelow : r ∈ definitionsAll ctx.naming statements :=
    (mem_append.mp hr).elim (fun h => absurd rfl (hnone r h)) id
  refine mem_cons_of_mem _ (mem_map_of_mem (mem_filter.mpr ⟨hbelow, ?_⟩))
  simpa using hnone

theorem Takes.notMem_of_start {symbol : String}
    (h : Takes ctx (assignedAll statements) (State.start ctx.target ctx.naming statements) symbol)
    (hplain : ctx.naming.IsPlain) (hnames : ∀ name ∈ Node.namesAll statements, Dotless name)
    (hapart : SymbolsApart ctx.naming statements) :
    symbol ∉ definedSymbols ctx.naming statements := by
  intro hmem
  cases h with
  | constant k => exact (definedSymbols_ne hplain hnames hmem k).1 rfl
  | noted k => exact (definedSymbols_ne hplain hnames hmem k).2 rfl
  | storage top mem => exact hapart.stored _ hmem _ mem rfl
  | word unnoted undefined allowed =>
    obtain ⟨himport, hexport⟩ := hapart.late symbol (mem_lateSymbols hmem unnoted)
    rcases allowed scope_start with h | ⟨name, hname, h⟩
    · simp [himport] at h
    · exact hexport name hname h

theorem Takes.notMem_of_enter {names : List String} {symbol : String} {r : Routine}
    (h : Takes ctx names (s.enter r) symbol) (hs : Pending ctx statements todo s)
    (hplain : ctx.naming.IsPlain) (hnames : ∀ name ∈ Node.namesAll statements, Dotless name) :
    symbol ∉ definedSymbols ctx.naming statements := by
  intro hmem
  cases h with
  | constant k => exact (definedSymbols_ne hplain hnames hmem k).1 rfl
  | noted k => exact (definedSymbols_ne hplain hnames hmem k).2 rfl
  | storage top mem => simp [State.enter] at top
  | word unnoted undefined allowed =>
    have hfunctions : (s.enter r).functions = noteAll [] (unitDefinitions ctx.naming statements) :=
      hs.entered.functions
    rw [hfunctions] at unnoted
    rcases mem_cons.mp hmem with rfl | hmem
    · exact undefined hs.entrySymbol_mem
    · obtain ⟨q, hq, rfl⟩ := mem_map.mp hmem
      obtain ⟨q', hq', hsymbol⟩ := exists_noted (List.Subset.refl _) hq ⟨q, hq, rfl⟩
      exact unnoted q' hq' hsymbol

theorem Pending.notMem_definedSymbols (h : Pending ctx statements todo s)
    (hplain : ctx.naming.IsPlain) (hnames : ∀ name ∈ Node.namesAll statements, Dotless name)
    (hapart : SymbolsApart ctx.naming statements) :
    ∀ symbol ∈ s.assembly.dataSymbols, symbol ∉ definedSymbols ctx.naming statements := by
  induction h with
  | @entry s h =>
    intro symbol hsymbol
    rcases (linked_entryFunction h).symbols symbol hsymbol with hstart | htakes
    · exact notMem_definedSymbols_of_start hapart hstart
    · exact htakes.notMem_of_start hplain hnames hapart
  | @body r rest s s' before h ih =>
    intro symbol hsymbol
    rcases (before.linked h).symbols symbol hsymbol with hbefore | htakes
    · exact ih symbol hbefore
    · exact htakes.notMem_of_enter before hplain hnames

theorem Pending.functions_subset_definedSymbols (h : Pending ctx statements [] s) :
    s.assembly.functions.map (·.name) ⊆ definedSymbols ctx.naming statements := by
  have hfunctions := h.functions_names
  rw [map_nil, append_nil, h.entered.functions] at hfunctions
  rw [hfunctions, definedSymbols]
  refine cons_subset_cons _ (map_subset _ fun r hr => ?_)
  exact mem_of_find?_eq_some ((mem_noteAll hr).resolve_left not_mem_nil).2

end

/-! ## The check -/

section

variable {ctx : Context} {statements : List Node} {s : State}

theorem Pending.callFaults_eq_nil (h : Pending ctx statements [] s) (hplain : ctx.naming.IsPlain)
    (hnames : ∀ name ∈ Node.namesAll statements, Dotless name)
    (hapart : SymbolsApart ctx.naming statements) {f : Func} (hf : f ∈ s.assembly.functions)
    {dst : Option Reg} {ret : Ty} {callee : String} {args : List Value}
    (hcall : .call dst ret callee args ∈ f.instrs) (i : Instr) :
    callFaults f.name (s.assembly.calledSignature? callee) i ret callee args = [] := by
  have hdeclared : ∀ {signature : Signature}, signature ∈ s.assembly.declarations →
      signature.ret = ret → signature.params = args.map (·.ty) → signature.name = callee →
      callFaults f.name (s.assembly.calledSignature? callee) i ret callee args = [] := by
    rintro signature hmem hret hparams rfl
    have hnone : signature.name ∉ s.assembly.functions.map (·.name) := fun hfunction =>
      h.notMem_definedSymbols hplain hnames hapart signature.name
        (mem_append_right _ (mem_map_of_mem hmem))
        (h.functions_subset_definedSymbols hfunction)
    rw [Assembly.calledSignature?_of_mem_declarations hmem h.declares.distinct hnone]
    exact callFaults_eq_nil_iff.mpr ⟨_, rfl, hparams, hret⟩
  obtain ⟨scope, htop, hcalls⟩ := h.called f hf
  generalize htypes : args.map (·.ty) = types at hdeclared
  have hcalled := hcalls dst ret callee args hcall
  rw [htypes] at hcalled
  cases h.compiledAgainst htop hcalled with
  | @initializer module program imported entry main =>
    have hmodule : module ∈ ctx.naming.initialized := by
      simpa [Naming.initialized, program] using imported
    exact hdeclared (h.declares.kept (initializer_mem_emptyAssembly _ hmodule
      (hapart.initializers module hmodule))) rfl rfl rfl
  | @catalogued e mem =>
    exact hdeclared (h.declares.kept (signature_mem_emptyAssembly _ _ mem)) rfl rfl rfl
  | @routine r first lowered =>
    obtain ⟨g, hg, hsignature⟩ := mem_map.mp lowered
    have hname : g.name = r.symbol := congrArg Signature.name hsignature
    rw [← hname, Assembly.calledSignature?_of_mem_functions hg (h.nodup_functions hnames hapart),
      hsignature]
    exact callFaults_eq_nil_iff.mpr ⟨_, rfl, htypes.symm, rfl⟩
  | external declared uncatalogued foreign => exact hdeclared declared rfl rfl rfl

theorem Pending.symbolFaults_eq_nil (h : Pending ctx statements [] s)
    (hplain : ctx.naming.IsPlain) (hnames : ∀ name ∈ Node.namesAll statements, Dotless name)
    (hapart : SymbolsApart ctx.naming statements) : s.assembly.symbolFaults = [] := by
  refine Assembly.symbolFaults_eq_nil_iff.mpr ⟨?_, h.declares.distinct, fun s hs d hd heq =>
    (h.defines hplain hnames).apart d hd (heq ▸ mem_map_of_mem hs)⟩
  refine nodup_append.mpr ⟨h.nodup_globals hplain hnames, h.nodup_functions hnames hapart, ?_⟩
  rintro name hglobal _ hfunction rfl
  exact h.notMem_definedSymbols hplain hnames hapart name (mem_append_left _ hglobal)
    (h.functions_subset_definedSymbols hfunction)

end

section

variable {target : Target} {naming : Naming} {observed : List String} {statements : List Node}

theorem faults_eq_nil {u : Generated} (hu : generate target naming observed statements = .ok u)
    (hplain : naming.IsPlain) (hnames : ∀ name ∈ Node.namesAll statements, Dotless name)
    (hapart : SymbolsApart naming statements) : u.assembly.faults = [] := by
  obtain ⟨s, hpending, rfl⟩ := generate_pending rfl hu
  rw [Assembly.faults, hpending.symbolFaults_eq_nil hplain hnames hapart, nil_append,
    flatMap_eq_nil_iff]
  intro f hf
  refine eq_nil_iff_forall_not_mem.mpr fun fault hfault => ?_
  obtain ⟨start, g, t, h, rfl, hglobals⟩ := (Stage.generate_functions hu).2 f hf
  obtain ⟨i, hi, hcall, hfault⟩ := Assembly.mem_functionFaults h.wellFormed.shapeFaults_eq_nil
    h.registerFaults_eq_nil (fun i hi => h.referenceFaults_eq_nil hglobals hi)
    (fun i hi => h.typeFaults_eq_nil _ hi) hfault
  cases i with
  | call dst ret callee args =>
    have hnil := hpending.callFaults_eq_nil hplain hnames hapart hf hi (.call dst ret callee args)
    rw [Assembly.typeFaults, hnil] at hfault
    simp at hfault
  | _ => simp [Instr.callee?] at hcall

theorem generate_error {e : Error} (h : generate target naming observed statements = .error e) :
    e.EndsLowering := by
  rcases generate_fails rfl h with ⟨g, P, -, hfails⟩ | ⟨r, rest, s, g, -, -, hfails⟩
  · exact hfails.endsLowering
  · exact hfails.endsLowering

end

end Lowering

section

variable {options : Options} {u : SourceUnit}

/-- The lowering of a unit under the options of the caller. -/
def lowered (options : Options) (u : SourceUnit) : Except Error Lowering.Generated :=
  Lowering.generate (options.mergedWith u).machine (options.mergedWith u).naming
    (options.mergedWith u).observed u.statements

theorem compile_of_error {e : Error} (h : lowered options u = .error e) :
    compile options u = .error e := by
  show (lowered options u >>= _) = _
  rw [h]
  rfl

theorem compile_of_verified {g : Lowering.Generated} {verdict : Ir.Verdict}
    (h : lowered options u = .ok g) (hverdict : verified g.assembly = .ok verdict) :
    ∃ c, compile options u = .ok c ∧ c.assembly = g.assembly := by
  have hcompile : compile options u = (lowered options u >>= fun g => do
      let verdict ← if (options.mergedWith u).verify then some <$> verified g.assembly else pure none
      return ⟨g.assembly, verdict, g.cleanup, g.warnings ++ (verdict.map (·.warnings)).getD []⟩) :=
    rfl
  rw [hcompile, h]
  show ∃ c, (do
      let verdict ← if (options.mergedWith u).verify then some <$> verified g.assembly else pure none
      return ⟨g.assembly, verdict, g.cleanup, g.warnings ++ (verdict.map (·.warnings)).getD []⟩ :
        Except Error Compiled) = .ok c ∧ c.assembly = g.assembly
  rw [hverdict]
  split
  · exact ⟨_, rfl, rfl⟩
  · exact ⟨_, rfl, rfl⟩

theorem exists_compile (options : Options) (u : SourceUnit) (p : Compiled → Bool)
    (h : (compile options u).toOption.any p = true) :
    ∃ c, compile options u = .ok c ∧ p c = true := by
  cases hc : compile options u with
  | error e => simp [hc, Except.toOption] at h
  | ok c => exact ⟨c, rfl, by simpa [hc, Except.toOption] using h⟩

theorem lowered_of_compile {c : Compiled} (h : compile options u = .ok c) :
    ∃ g, lowered options u = .ok g ∧ c.assembly = g.assembly ∧
      (options.verify = true → (g.assembly.check false).valid = true) := by
  cases hlowered : lowered options u with
  | error e =>
    rw [compile_of_error hlowered] at h
    cases h
  | ok g =>
    have hcompile : compile options u = (do
        let verdict ← if options.verify then some <$> verified g.assembly else pure none
        return ⟨g.assembly, verdict, g.cleanup, g.warnings ++ (verdict.map (·.warnings)).getD []⟩) := by
      show (lowered options u >>= _) = _
      rw [hlowered]
      rfl
    rw [hcompile] at h
    by_cases hverify : options.verify = true
    · rw [if_pos hverify] at h
      by_cases hvalid : (g.assembly.check false).valid = true
      · rw [verified, if_pos hvalid] at h
        cases h
        exact ⟨g, rfl, rfl, fun _ => hvalid⟩
      · rw [verified, if_neg hvalid] at h
        cases h
    · rw [if_neg hverify] at h
      cases h
      exact ⟨g, rfl, rfl, fun hv => absurd hv hverify⟩

/-- The check never fails a unit of which no symbols clash unnoticed: it is compiled whenever it is
lowered. -/
theorem compile_ne_verificationFailed (hplain : (options.mergedWith u).naming.IsPlain)
    (hnames : ∀ name ∈ Node.namesAll u.statements, Dotless name)
    (hapart : Lowering.SymbolsApart (options.mergedWith u).naming u.statements) :
    (∀ faults, compile options u ≠ .error (.verificationFailed faults)) ∧
      ∀ g, lowered options u = .ok g →
        ∃ c, compile options u = .ok c ∧ c.assembly = g.assembly ∧ g.assembly.faults = [] := by
  have hok : ∀ g, lowered options u = .ok g →
      ∃ c, compile options u = .ok c ∧ c.assembly = g.assembly ∧ g.assembly.faults = [] := by
    intro g hg
    have hfaults := Lowering.faults_eq_nil hg hplain hnames hapart
    have hverified : verified g.assembly = .ok (g.assembly.check false) := by
      simp [verified, Ir.Assembly.check, hfaults]
    obtain ⟨c, hc, hassembly⟩ := compile_of_verified hg hverified
    exact ⟨c, hc, hassembly, hfaults⟩
  refine ⟨fun faults hfailed => ?_, hok⟩
  cases hlowered : lowered options u with
  | error e =>
    -- An error of lowering is none of the check.
    have hends := Lowering.generate_error hlowered
    rw [compile_of_error hlowered] at hfailed
    rw [Except.error.inj hfailed] at hends
    exact hends
  | ok g =>
    obtain ⟨c, hc, -⟩ := hok g hlowered
    rw [hc] at hfailed
    cases hfailed

/-- A program that imports a module, with functions that give way to the entry point and to a
catalogued function, and with one that is defined in a branch. -/
def givingWay : SourceUnit where
  statements :=
    [.functionDef "main" ["n"]
        [.ret (some (.relation (.memberAccess (.identifier "m") "f") (.identifier "n")))],
      .assignment "x" (.relation (.identifier "main") (.literal (.number .one))),
      .conditional (.identifier "x")
        [.functionDef "sqrt" ["n"] [.ret (some (.identifier "n"))]] [],
      .relation (.identifier "print") (.relation (.identifier "sqrt") (.identifier "x"))]
  imports := [⟨"m", none⟩]

theorem compile_givingWay :
    (({} : Options).mergedWith givingWay).naming.IsPlain ∧
      (∀ name ∈ Node.namesAll givingWay.statements, Dotless name) ∧
      Lowering.SymbolsApart (({} : Options).mergedWith givingWay).naming givingWay.statements ∧
      (∀ faults, compile {} givingWay ≠ .error (.verificationFailed faults)) ∧
      ∃ c, compile {} givingWay = .ok c ∧
        c.assembly.functions.map (·.name) = ["main", "main.user", "sqrt.user"] ∧
        c.assembly.faults = [] := by
  have hplain : (({} : Options).mergedWith givingWay).naming.IsPlain := by
    have hprogram : (({} : Options).mergedWith givingWay).naming.mode = .program := rfl
    refine ⟨fun module hmode => by simp [hprogram] at hmode, ?_⟩
    unfold Dotless
    decide +kernel
  have hnames : ∀ name ∈ Node.namesAll givingWay.statements, Dotless name := by
    unfold Dotless
    decide +kernel
  have hapart : Lowering.SymbolsApart (({} : Options).mergedWith givingWay).naming
      givingWay.statements :=
    ⟨by decide +kernel, by decide +kernel, by decide +kernel, by decide +kernel,
      by decide +kernel⟩
  obtain ⟨g, hg, hfunctions⟩ := Lowering.exists_generate
    (({} : Options).mergedWith givingWay).machine (({} : Options).mergedWith givingWay).naming
    (({} : Options).mergedWith givingWay).observed givingWay.statements
    (fun g => g.assembly.functions.map (·.name) = ["main", "main.user", "sqrt.user"])
    (by decide +kernel)
  obtain ⟨hfailed, hok⟩ := compile_ne_verificationFailed hplain hnames hapart
  obtain ⟨c, hc, hassembly, hfaults⟩ := hok g hg
  exact ⟨hplain, hnames, hapart, hfailed, c, hc, hassembly ▸ of_decide_eq_true hfunctions,
    hassembly ▸ hfaults⟩

/-- A library with a variable whose exported word has the symbol of the entry function. -/
def exportedInit : SourceUnit where
  statements := [.assignment "init" (.literal (.number .one))]

theorem compile_exportedInit :
    compile { mode := .library "m" } exportedInit =
      .error (.verificationFailed ["symbol @m_init defined more than once"]) := by
  have hfailed : (match compile { mode := .library "m" } exportedInit with
      | .error e => decide (e = .verificationFailed ["symbol @m_init defined more than once"])
      | .ok _ => false) = true := by
    decide +kernel
  cases hc : compile { mode := .library "m" } exportedInit with
  | error e =>
    rw [hc] at hfailed
    rw [of_decide_eq_true hfailed]
  | ok c =>
    rw [hc] at hfailed
    cases hfailed

end

end ScriptCompiler
