import ScriptCompiler.Proofs.Links

/-!
# What other objects see of a library

A library shows the globals whose symbols begin with the name of its module and an underscore. The
storage of a variable never begins so, unless the name of the module is made of underscores only, and
string constants are hidden whatever their symbols are. What is left are the words that the library
keeps for its public variables (`generate_visibility`).
-/

namespace ScriptCompiler.Lowering

open Ir
open Numeric (assignedAll)

/-- The global is the exported word of one of the variables. -/
def IsExport (module : String) (names : List String) (d : Global) : Prop :=
  d.ty = .i64 ∧ ∃ name ∈ names, Text.startsWith "_" name = false ∧ d.name = module ++ "_" ++ name

/-! ## Symbols and the beginning that they show -/

theorem eq_underscore_of_append {module front back : List Char}
    (h : '_' :: (module ++ front) = module ++ '_' :: back) : ∀ c ∈ module, c = '_' := by
  induction module with
  | nil => simp
  | cons c module ih =>
    obtain ⟨rfl, h⟩ := List.cons.inj h
    exact List.forall_mem_cons.mpr ⟨rfl, ih h⟩

section

variable {naming : Naming} {module : String}

theorem exportSymbol?_eq_some (hmode : naming.mode = .library module) {name symbol : String} :
    naming.exportSymbol? name = some symbol ↔
      Text.startsWith "_" name = false ∧ symbol = module ++ "_" ++ name := by
  rw [Naming.exportSymbol?, hmode]
  cases Text.startsWith "_" name <;> simp [memberSymbol, eq_comm]

theorem globalVisibility_eq (hmode : naming.mode = .library module)
    (hextra : naming.extraExports = []) (symbol : String) :
    naming.globalVisibility symbol =
      if Text.startsWith (module ++ "_") symbol then .external else .hidden := by
  simp [Naming.globalVisibility, Naming.exportPrefixes, hmode, hextra]

theorem not_startsWith_globalSymbol (hmode : naming.mode = .library module)
    (hletter : ∃ c ∈ module.toList, c ≠ '_') (name : String) :
    Text.startsWith (module ++ "_") (naming.globalSymbol name) = false := by
  refine Bool.eq_false_iff.mpr fun hstarts => ?_
  obtain ⟨back, hback⟩ := List.isPrefixOf_iff_prefix.mp hstarts
  rw [String.toList_append, List.append_assoc] at hback
  rcases toList_globalSymbol hmode name with ⟨rest, -, hsymbol⟩ | hsymbol <;> rw [hsymbol] at hback
  · obtain ⟨c, hc, hne⟩ := hletter
    exact hne (eq_underscore_of_append hback.symm c hc)
  · simp at hback

theorem dotless_of_isExport {names : List String} {d : Global} (hmodule : Dotless module)
    (hnames : ∀ name ∈ names, Dotless name) (h : IsExport module names d) : Dotless d.name := by
  obtain ⟨-, name, hname, -, hsymbol⟩ := h
  exact dotless_of_isExternal (.inr ⟨module, name, hmodule, hnames name hname, hsymbol⟩)

theorem globalSymbol_ne_of_isExport (hmode : naming.mode = .library module) {names : List String}
    (hnames : ∀ name ∈ names, Dotless name) {d : Global} (h : IsExport module names d)
    (name : String) : d.name ≠ naming.globalSymbol name := by
  obtain ⟨-, name', hname', hpublic, hsymbol⟩ := h
  exact exportSymbol_ne_globalSymbol (hnames name' hname')
    ((exportSymbol?_eq_some hmode).mpr ⟨hpublic, hsymbol⟩) name

end

/-! ## The globals of a unit -/

section

variable {ctx : Context} {statements : List Node} {todo : List Routine} {s : State}

/-- Every global of a unit is one that its top level supplies: functions add constants, noted
addresses and variables of other modules only. -/
theorem Pending.supplies (h : Pending ctx statements todo s) : ∀ d ∈ s.assembly.globals,
    Supplies ctx (assignedAll statements) (State.start ctx.target ctx.naming statements) d := by
  induction h with
  | @entry s h =>
    intro d hd
    refine ((linked_entryFunction h).supplied d hd).resolve_left ?_
    simp [(Stage.start_assembly ctx.target ctx.naming statements).2]
  | @body r rest s s' before h ih =>
    intro d hd
    rcases (before.linked h).supplied d hd with hd | hsupplies
    · exact ih d hd
    cases hsupplies with
    | hidden symbol visibility => exact .hidden symbol visibility
    | storage top | exported top => simp [State.enter] at top
    | external undefined => exact .external undefined

/-- A global that is supplied is defined to be shown exactly when it is an exported word. -/
theorem Supplies.visibility {names : List String} {module : String} {d : Global}
    (h : Supplies ctx names s d) (hmode : ctx.naming.mode = .library module)
    (hextra : ctx.naming.extraExports = []) (hmodule : Dotless module)
    (hletter : ∃ c ∈ module.toList, c ≠ '_') (hnames : ∀ name ∈ names, Dotless name)
    (hdefined : d.init.isSome = true) :
    IsExport module names d ∧ d.visibility = .external ∧ d.constant = false ∨
      ¬ IsExport module names d ∧ d.visibility = .hidden := by
  cases h with
  | hidden symbol visibility =>
    refine .inr ⟨fun hexport => ?_, visibility⟩
    have hdotless := dotless_of_isExport hmodule hnames hexport
    rcases symbol with ⟨k, hk⟩ | ⟨k, hk⟩ <;> rw [hk] at hdotless
    · exact not_dotless_constantSymbol k hdotless
    · exact not_dotless_cleanupSymbol k hdotless
  | storage top mem symbol changes visibility =>
    refine .inr ⟨fun hexport => globalSymbol_ne_of_isExport hmode hnames hexport _ symbol, ?_⟩
    rw [visibility, globalVisibility_eq hmode hextra, symbol,
      not_startsWith_globalSymbol hmode hletter]
    rfl
  | @exported name top mem symbol word changes visibility =>
    obtain ⟨hpublic, hname⟩ := (exportSymbol?_eq_some hmode).mp symbol
    refine .inl ⟨⟨word, name, mem, hpublic, hname⟩, ?_, changes⟩
    rw [visibility, globalVisibility_eq hmode hextra, hname, Text.startsWith_append]
    rfl
  | external undefined => simp [undefined] at hdefined

end

/-- What a library defines outside its functions is visible from outside exactly when it is the word
of a public variable that is assigned at top level. All else is hidden, as the storage of variables
and string constants are. The storage of each variable has a symbol of its own, which no exported
word has. -/
theorem generate_visibility {target : Target} {naming : Naming} {observed : List String}
    {statements : List Node} {u : Generated} {module : String}
    (hmode : naming.mode = .library module) (hextra : naming.extraExports = [])
    (hmodule : Dotless module) (hletter : ∃ c ∈ module.toList, c ≠ '_')
    (hnames : ∀ name ∈ Node.namesAll statements, Dotless name)
    (hu : generate target naming observed statements = .ok u) :
    (∀ d ∈ u.assembly.globals, d.init.isSome = true →
      (d.visibility = .external ↔ IsExport module (assignedAll statements) d) ∧
      (¬ IsExport module (assignedAll statements) d → d.visibility = .hidden) ∧
      (d.constant = true ∨ (∃ name, d.name = naming.globalSymbol name) → d.visibility = .hidden)) ∧
    (∀ name ∈ assignedAll statements, ∀ name' ∈ assignedAll statements, name ≠ name' →
      naming.globalSymbol name ≠ naming.globalSymbol name') ∧
    ∀ name ∈ assignedAll statements, ∀ name' ∈ assignedAll statements,
      Text.startsWith "_" name' = false → naming.globalSymbol name ≠ module ++ "_" ++ name' := by
  obtain ⟨s, hpending, rfl⟩ := generate_pending rfl hu
  have hassigned : ∀ name ∈ assignedAll statements, Dotless name := fun name hname =>
    hnames name (assignedAll_subset_namesAll statements hname)
  refine ⟨fun d hd hdefined => ?_, fun name _ name' _ hne heq => hne ?_,
    fun name _ name' hname' hpublic heq => ?_⟩
  · rcases (hpending.supplies d hd).visibility hmode hextra hmodule hletter hassigned hdefined with
      ⟨hexport, hvisible, hchanges⟩ | ⟨hexport, hhidden⟩
    · refine ⟨by simp [hvisible, hexport], fun h => absurd hexport h, ?_⟩
      rintro (hconstant | ⟨name, hname⟩)
      · simp [hchanges] at hconstant
      · exact absurd hname (globalSymbol_ne_of_isExport hmode hassigned hexport name)
    · exact ⟨by simp [hhidden, hexport], fun _ => hhidden, fun _ => hhidden⟩
  · exact globalSymbol_injective naming heq
  · exact exportSymbol_ne_globalSymbol (hassigned name' hname')
      ((exportSymbol?_eq_some hmode).mpr ⟨hpublic, rfl⟩) name heq.symm

/-- A library whose name begins with an underscore, with a public variable, a hidden one of the same
name behind an underscore, a variable of a branch, and one of another module. -/
def showing : List Node :=
  [.assignment "x" (.literal (.number .one)),
    .assignment "_x" (.literal (.text "hidden")),
    .conditional (.identifier "x") [.assignment "y" (.identifier "x")] [],
    .functionDef "f" ["n"] [.ret (some (.memberAccess (.identifier "other") "z"))]]

theorem visibility_showing :
    ∃ u, generate (.resolve none) { mode := .library "_m" } ["x"] showing = .ok u ∧
      u.assembly.globals.map (·.name) =
        ["_m.x", "_m_x", ".str.0", "__m.x", "_m.y", "_m_y", "other_z"] ∧
      ∀ d ∈ u.assembly.globals, d.init.isSome = true →
        (d.visibility = .external ↔ IsExport "_m" ["x", "_x", "y"] d) ∧
        (d.constant = true ∨ d.name = "__m.x" → d.visibility = .hidden) := by
  have hnames : ∀ name ∈ Node.namesAll showing, Dotless name := by
    unfold Dotless
    decide +kernel
  obtain ⟨u, hu, hglobals⟩ := exists_generate (.resolve none) { mode := .library "_m" } ["x"] showing
    (fun u => u.assembly.globals.map (·.name) =
      ["_m.x", "_m_x", ".str.0", "__m.x", "_m.y", "_m_y", "other_z"]) (by decide +kernel)
  have hmode : ({ mode := .library "_m" } : Naming).mode = .library "_m" := rfl
  obtain ⟨hvisible, -, -⟩ := generate_visibility hmode rfl (by unfold Dotless; decide)
    ⟨'m', by decide, by decide⟩ hnames hu
  refine ⟨u, hu, of_decide_eq_true hglobals, fun d hd hdefined => ?_⟩
  obtain ⟨hexport, -, hhidden⟩ := hvisible d hd hdefined
  exact ⟨hexport, fun h => hhidden (h.imp_right fun hname => ⟨"_x", hname⟩)⟩

/-- A library in which two public variables have one record. -/
def copying : List Node :=
  [.assignment "x" (.literal (.number .one)), .assignment "y" (.identifier "x"),
    .assignment "x" (.literal (.number ⟨2⟩))]

/-- The record that `x` and `y` have is given a new value after the word of `y` is stored, and only
the word of `x` is stored again. -/
theorem exports_copying :
    (generate (.resolve none) { mode := .library "m" } ["x"] copying).toOption.map
      (fun u => (u.assembly.functions.flatMap Func.instrs).drop 6) =
        some [.load 4 .ptr (.global "m.x"), .store (.reg 4 .ptr) (.global "m.y"),
          .load 5 .ptr (.global "m.y"), .call (some 6) .double Catalog.boxValue [.reg 5 .ptr],
          .cast 7 .bitcast (.reg 6 .double) .i64, .store (.reg 7 .i64) (.global "m_y"),
          .load 8 .ptr (.global "m.x"), .call none .void Catalog.boxUpdate [.reg 8 .ptr, .float ⟨2⟩],
          .load 9 .ptr (.global "m.x"), .call (some 10) .double Catalog.boxValue [.reg 9 .ptr],
          .cast 11 .bitcast (.reg 10 .double) .i64, .store (.reg 11 .i64) (.global "m_x"),
          .ret none] := by
  decide +kernel

end ScriptCompiler.Lowering
