import ScriptCompiler.Proofs.Access.Unit

/-!
# What a unit declares and defines outside its functions

Symbols are added in seven ways as a unit is lowered: the catalogued functions and the initializers
of imported modules are declared at the start, external functions when they are first called, and
globals are added for external variables, for exported words, for the storage of variables, for
string constants and for noted addresses.

`Declares` says what holds of the declarations, whatever the names of the unit are. Where they are
identifiers the families of globals cannot meet, since their symbols differ in the number of dots or
are checked before they are added; `Defines` says so. Both are invariants of every move, and so they
hold between two functions (`Pending.declares`, `Pending.defines`).
-/

namespace ScriptCompiler.Lowering

open Ir List
open Numeric (assigned assignedAll)

/-- The modules that a unit belongs to or imports have identifiers as names. -/
structure Naming.IsPlain (n : Naming) : Prop where
  own : ∀ module, n.mode = .library module → Dotless module
  imported : ∀ module ∈ n.importedModules, Dotless module

/-- What holds of the declarations of a unit. -/
structure Declares (ctx : Context) (s : State) : Prop where
  distinct : (s.assembly.declarations.map (·.name)).Nodup
  /-- What is declared at the start stays so. -/
  kept : (emptyAssembly ctx.target ctx.naming).declarations ⊆ s.assembly.declarations
  /-- External functions are declared with the number of words they take. -/
  external : ∀ p ∈ s.externals.functions,
    ⟨p.1, .i64, List.replicate p.2 .i64⟩ ∈ s.assembly.declarations
  foreign : ∀ p ∈ s.externals.functions,
    p.1 ∉ (emptyAssembly ctx.target ctx.naming).declarations.map (·.name)
  freed : ∀ e ∈ s.cleanup, e.destroy ∈ Catalog.releasing

/-- The symbol of a string constant, by its number. -/
def constantSymbol (k : Nat) : String := ".str." ++ toString k

/-- What a global is, when so many string constants and noted addresses have been added. -/
inductive IsGlobal (naming : Naming) (strings noted : Nat) (d : Global) : Prop where
  /-- The storage of a variable. -/
  | storage (name : String) (named : Dotless name) (storage : StorageClass)
      (symbol : d.name = naming.globalSymbol name) (ty : d.ty = storage.slotType)
      (defined : d.init.isSome = true) (changes : d.constant = false)
  | constant (k : Nat) (lt : k < strings) (symbol : d.name = constantSymbol k)
  | noted (k : Nat) (lt : k < noted) (program : naming.mode = .program)
      (eq : d = cleanupGlobal k)
  /-- An exported word or a variable of another module. -/
  | word (dotless : Dotless d.name) (ty : d.ty = .i64)

/-- What holds of the globals of a unit whose names are identifiers. -/
structure Defines (ctx : Context) (s : State) : Prop where
  origin : ∀ d ∈ s.assembly.globals, IsGlobal ctx.naming s.strings s.cleanup.length d
  /-- A symbol other than that of a variable is taken once. -/
  once : ∀ symbol, (∀ name, Dotless name → symbol ≠ ctx.naming.globalSymbol name) →
    (s.assembly.globals.map (·.name)).count symbol ≤ 1
  /-- It is not declared as well. -/
  apart : ∀ d ∈ s.assembly.globals, d.name ∉ s.assembly.declarations.map (·.name)
  dotless : ∀ signature ∈ s.assembly.declarations, Dotless signature.name
  noted : ∀ e ∈ s.cleanup, ∃ d ∈ s.assembly.globals, d.name = e.slot ∧ d.ty = .ptr

/-! ## Declarations -/

theorem hasSymbol_eq_false {a : Assembly} {symbol : String} :
    a.hasSymbol symbol = false ↔ symbol ∉ a.globals.map (·.name) ∧
      symbol ∉ a.functions.map (·.name) ∧ symbol ∉ a.declarations.map (·.name) := by
  simp [Assembly.hasSymbol, Assembly.global?, Assembly.function?, Assembly.declaration?, and_assoc]

theorem nodup_declare {a : Assembly} (h : (a.declarations.map (·.name)).Nodup)
    (signature : Signature) : ((a.declare signature).declarations.map (·.name)).Nodup := by
  unfold Assembly.declare
  split
  case isTrue => exact h
  case isFalse hnone =>
    rw [← declaration?_isSome] at hnone
    simpa [nodup_append] using ⟨h, fun _ hmem heq => hnone (heq ▸ mem_map_of_mem hmem)⟩

theorem names_declare_subset (a : Assembly) (signature : Signature) :
    (a.declare signature).declarations.map (·.name) ⊆
      a.declarations.map (·.name) ++ [signature.name] := by
  unfold Assembly.declare
  split
  · exact subset_append_left _ _
  · simp

theorem mem_declare_of_notMem {a : Assembly} {signature : Signature}
    (h : signature.name ∉ a.declarations.map (·.name)) :
    signature ∈ (a.declare signature).declarations := by
  rw [declaration?_isSome] at h
  simp [Assembly.declare, h]

section

variable {α : Type} (f : α → Signature)

theorem nodup_declare_foldl (xs : List α) : ∀ a : Assembly, (a.declarations.map (·.name)).Nodup →
    ((xs.foldl (fun a x => a.declare (f x)) a).declarations.map (·.name)).Nodup := by
  induction xs with
  | nil => exact fun _ h => h
  | cons x xs ih => exact fun a h => ih _ (nodup_declare h (f x))

theorem names_declare_foldl_subset (xs : List α) : ∀ a : Assembly,
    (xs.foldl (fun a x => a.declare (f x)) a).declarations.map (·.name) ⊆
      a.declarations.map (·.name) ++ xs.map fun x => (f x).name := by
  induction xs with
  | nil => exact fun a => by simp
  | cons x xs ih =>
    intro a name hname
    have hmem := mem_append.mp (ih (a.declare (f x)) hname)
    rcases hmem with hmem | hmem
    · have := names_declare_subset a (f x) hmem
      simp only [mem_append, mem_singleton] at this
      rcases this with h | h <;> simp [h]
    · simp [hmem]

theorem signature_mem_declare_foldl {xs : List α}
    (hf : ∀ x ∈ xs, ∀ y ∈ xs, (f x).name = (f y).name → f x = f y) :
    ∀ {a : Assembly} {x : α}, x ∈ xs → (f x).name ∉ a.declarations.map (·.name) →
      f x ∈ (xs.foldl (fun a x => a.declare (f x)) a).declarations := by
  induction xs with
  | nil => exact fun hx => by simp at hx
  | cons y ys ih =>
    intro a x hx hnew
    have hlater := (mem_declare_foldl f ys (a.declare (f y))).1
    -- The first one with a name is declared, and those behind it are the same.
    by_cases hname : (f x).name = (f y).name
    · have heq := hf x hx y mem_cons_self hname
      rw [heq] at hnew ⊢
      exact hlater (mem_declare_of_notMem hnew)
    · have hys : x ∈ ys := (mem_cons.mp hx).resolve_left fun h => hname (h ▸ rfl)
      refine ih (fun x hx y hy => hf x (by simp [hx]) y (by simp [hy])) hys fun hmem => ?_
      have := names_declare_subset a (f y) hmem
      simp only [mem_append, mem_singleton] at this
      exact this.elim hnew hname

end

theorem signature_mem_emptyAssembly (target : Target) (naming : Naming) {e : Catalog.Entry}
    (he : e ∈ Catalog.catalog) :
    e.signature target ∈ (emptyAssembly target naming).declarations := by
  have hnames : ∀ e ∈ Catalog.catalog, ∀ e' ∈ Catalog.catalog, e.name = e'.name → e = e' := by
    decide +kernel
  refine (mem_declare_foldl (fun module => ⟨initSymbol module, .void, []⟩) naming.initialized _).1 ?_
  exact signature_mem_declare_foldl (fun e : Catalog.Entry => e.signature target)
    (fun e he e' he' h => by rw [hnames e he e' he' h]) he not_mem_nil

theorem names_emptyAssembly_subset (target : Target) (naming : Naming) :
    (emptyAssembly target naming).declarations.map (·.name) ⊆
      Catalog.catalog.map (·.name) ++ naming.initialized.map initSymbol := by
  intro name hname
  have hmem := names_declare_foldl_subset (fun module => ⟨initSymbol module, .void, []⟩)
    naming.initialized _ hname
  rcases mem_append.mp hmem with hmem | hmem
  · have := names_declare_foldl_subset (fun e : Catalog.Entry => e.signature target)
      Catalog.catalog _ hmem
    exact mem_append_left _ (by simpa [Catalog.Entry.signature] using this)
  · exact mem_append_right _ (by simpa using hmem)

theorem mem_catalog_names {name : String} :
    name ∈ Catalog.catalog.map (·.name) ↔ Catalog.isCatalogued name = true := by
  simp [Catalog.isCatalogued, Catalog.find?, List.find?_isSome]

theorem initializer_mem_emptyAssembly (target : Target) {naming : Naming} {module : String}
    (hmodule : module ∈ naming.initialized)
    (hnew : Catalog.isCatalogued (initSymbol module) = false) :
    ⟨initSymbol module, .void, []⟩ ∈ (emptyAssembly target naming).declarations := by
  refine signature_mem_declare_foldl (fun module => ⟨initSymbol module, .void, []⟩)
    (fun m _ m' _ h => ?_) hmodule fun hmem => ?_
  · have hsymbol : initSymbol m = initSymbol m' := h
    rw [hsymbol]
  · have := names_declare_foldl_subset (fun e : Catalog.Entry => e.signature target)
      Catalog.catalog _ hmem
    have hcatalogued : initSymbol module ∈ Catalog.catalog.map (·.name) := by
      simpa [Catalog.Entry.signature] using this
    rw [mem_catalog_names, hnew] at hcatalogued
    exact absurd hcatalogued (by decide)

section

variable {ctx : Context} {s s' : State}

theorem sameLinkage_bind (s : State) (name : String) (b : Binding) :
    SameLinkage s (s.bind name b) := by
  obtain ⟨locals, globals, heq, -⟩ := Stage.bind_eq s name b
  rw [heq]
  exact ⟨rfl, rfl, rfl, rfl, rfl⟩

theorem Stage.SameCode.linkage {P : Lexicon} (h : Stage.SameCode ctx P s s') :
    SameLinkage s s' :=
  ⟨by rw [h.assembly], by rw [h.assembly], h.externals, h.cleanup, h.strings⟩

theorem SameLinkage.declares (h : SameLinkage s s') (hs : Declares ctx s) : Declares ctx s' where
  distinct := by rw [h.declarations]; exact hs.distinct
  kept := by rw [h.declarations]; exact hs.kept
  external := by rw [h.declarations, h.externals]; exact hs.external
  foreign := by rw [h.externals]; exact hs.foreign
  freed := by rw [h.cleanup]; exact hs.freed

theorem declares_start (target : Target) (naming : Naming) (statements : List Node)
    (observed shared : List String) :
    Declares ⟨target, naming, observed, shared⟩ (State.start target naming statements) := by
  have hsame := Stage.sameCode_start target naming statements
  have hcleanup : (State.start target naming statements).cleanup = [] := hsame.cleanup
  have hexternals : (State.start target naming statements).externals = {} := hsame.externals
  refine ⟨?_, ?_, by simp [hexternals], by simp [hexternals], by simp [hcleanup]⟩
  · rw [hsame.assembly]
    exact nodup_declare_foldl _ _ _ (nodup_declare_foldl _ _ _ nodup_nil)
  · rw [hsame.assembly]
    exact List.Subset.refl _

theorem Declares.useFunction {symbol : String} {asked arity : Nat} {e : Externals} {a : Assembly}
    (hs : Declares ctx s)
    (hrun : s.externals.useFunction s.assembly symbol asked = .ok (arity, e, a)) :
    Declares ctx { s with externals := e, assembly := a } := by
  unfold Externals.useFunction at hrun
  split at hrun
  case h_1 =>
    obtain ⟨-, rfl, rfl⟩ : _ ∧ _ ∧ _ := by simpa using hrun
    exact { hs with }
  case h_2 =>
    split_ifs at hrun with hfree
    obtain ⟨-, rfl, rfl⟩ : _ ∧ _ ∧ _ := by simpa using hrun
    have hnew : symbol ∉ s.assembly.declarations.map (·.name) := by
      simp only [Bool.or_eq_true, decide_eq_true_eq, not_or, Bool.not_eq_true] at hfree
      exact (hasSymbol_eq_false.mp hfree.2).2.2
    have hsub := subset_declare s.assembly ⟨symbol, .i64, List.replicate asked .i64⟩
    refine ⟨nodup_declare hs.distinct _, List.Subset.trans hs.kept hsub, ?_, ?_, hs.freed⟩
    · intro p hp
      rcases mem_append.mp hp with hp | hp
      · exact hsub (hs.external p hp)
      · obtain rfl := mem_singleton.mp hp
        exact mem_declare_of_notMem hnew
    · intro p hp
      rcases mem_append.mp hp with hp | hp
      · exact hs.foreign p hp
      · obtain rfl := mem_singleton.mp hp
        exact fun hmem => hnew (map_subset _ hs.kept hmem)

theorem mem_releasing_of_owner {name destroy : String} (h : (name, destroy) ∈ Catalog.owners) :
    destroy ∈ Catalog.releasing := by
  have hall : ∀ p ∈ Catalog.owners, p.2 ∈ Catalog.releasing := by decide
  exact hall _ h

theorem Stage.Move.declares {P : Lexicon} {g g' : Stage} (h : Stage.Move ctx P g g')
    (hs : Declares ctx g.state) : Declares ctx g'.state := by
  cases h with
  | define | convert | effect | slot | nullSlot | allocate | release | constant | storage
  | exported => exact { hs with }
  | reserve e destroy args mem owner =>
    refine { hs with freed := fun entry hentry => ?_ }
    rcases mem_append.mp hentry with hentry | hentry
    · exact hs.freed entry hentry
    · obtain rfl := mem_singleton.mp hentry
      exact mem_releasing_of_owner owner
  | useVariable symbol e a named h =>
    unfold Externals.useVariable at h
    split_ifs at h
    all_goals
      obtain ⟨rfl, rfl⟩ := Prod.mk.inj (Except.ok.inj h)
      exact { hs with }
  | useFunction symbol asked arity e a named h => exact hs.useFunction h
  | bind name b => exact (sameLinkage_bind _ name b).declares hs
  | note s same => exact same.linkage.declares hs

theorem Pending.declares {statements : List Node} {todo : List Routine}
    (h : Pending ctx statements todo s) : Declares ctx s :=
  h.invariant (p := fun _ => True) (fun _ _ => trivial) SameLinkage.declares
    (fun _ hmove => hmove.declares) (declares_start _ _ statements _ _)

end

/-! ## Symbols of globals -/

section

variable {naming : Naming}

theorem count_dot_globalSymbol (hplain : naming.IsPlain) {name : String} (hname : Dotless name) :
    (naming.globalSymbol name).toList.count '.' = 1 := by
  have hname0 : name.toList.count '.' = 0 := count_eq_zero.mpr hname
  cases hmode : naming.mode with
  | program =>
    rw [Naming.globalSymbol, hmode]
    simp [String.toList_append, hname0]
  | library module =>
    have hmodule : module.toList.count '.' = 0 := count_eq_zero.mpr (hplain.own module hmode)
    rcases toList_globalSymbol hmode name with ⟨rest, hrest, heq⟩ | heq
    · rw [hrest, count_cons_of_ne (by decide)] at hname0
      rw [heq, count_cons_of_ne (by decide), count_append, count_cons_self, hname0,
        hmodule]
    · rw [heq, count_append, count_cons_self, hname0, hmodule]

theorem one_lt_count_dot_constantSymbol (k : Nat) :
    1 < (constantSymbol k).toList.count '.' := by
  rw [constantSymbol, String.toList_append, count_append]
  exact Nat.lt_of_lt_of_le (by decide) (Nat.le_add_right 2 _)

theorem constantSymbol_inj {k j : Nat} (h : constantSymbol k = constantSymbol j) : k = j := by
  have h := congrArg String.toList h
  simp only [constantSymbol, String.toList_append, append_cancel_left_eq,
    String.toList_inj] at h
  exact toString_nat_inj h

theorem constantSymbol_ne_cleanupSymbol (k j : Nat) : constantSymbol k ≠ cleanupSymbol j :=
  ne_cleanupSymbol_of_head (c := '.') (by simp [constantSymbol, String.toList_append]) (by decide)

theorem globalSymbol_ne_cleanupSymbol (hprogram : naming.mode = .program) (name : String)
    (k : Nat) : naming.globalSymbol name ≠ cleanupSymbol k := by
  rw [Naming.globalSymbol, hprogram]
  exact ne_cleanupSymbol_of_head (c := 'm') (by simp [String.toList_append]) (by decide)

theorem not_dotless_globalSymbol (hplain : naming.IsPlain) {name : String} (hname : Dotless name) :
    ¬ Dotless (naming.globalSymbol name) := fun h => by
  have := count_dot_globalSymbol hplain hname
  rw [count_eq_zero.mpr h] at this
  exact absurd this (by decide)

theorem not_dotless_constantSymbol (k : Nat) : ¬ Dotless (constantSymbol k) := fun h => by
  have := one_lt_count_dot_constantSymbol k
  rw [count_eq_zero.mpr h] at this
  exact absurd this (by decide)

theorem not_dotless_cleanupSymbol (k : Nat) : ¬ Dotless (cleanupSymbol k) :=
  fun h => ne_cleanupSymbol_of_dotless h rfl

theorem dotless_exportSymbol (hplain : naming.IsPlain) {name symbol : String}
    (hname : Dotless name) (h : naming.exportSymbol? name = some symbol) : Dotless symbol := by
  unfold Naming.exportSymbol? at h
  cases hmode : naming.mode with
  | program => simp [hmode] at h
  | library module =>
    rw [hmode] at h
    obtain rfl : memberSymbol module name = symbol := by
      split_ifs at h
      exact Option.some.inj h
    exact dotless_of_isExternal (.inr ⟨module, name, hplain.own module hmode, hname, rfl⟩)

variable {strings noted : Nat} {d : Global}

theorem IsGlobal.mono (h : IsGlobal naming strings noted d) {strings' noted' : Nat}
    (hstrings : strings ≤ strings') (hnoted : noted ≤ noted') :
    IsGlobal naming strings' noted' d := by
  cases h with
  | storage name named storage symbol ty defined changes =>
    exact .storage name named storage symbol ty defined changes
  | constant k lt symbol => exact .constant k (Nat.lt_of_lt_of_le lt hstrings) symbol
  | noted k lt program eq => exact .noted k (Nat.lt_of_lt_of_le lt hnoted) program eq
  | word dotless ty => exact .word dotless ty

theorem IsGlobal.ne_constantSymbol (h : IsGlobal naming strings noted d) (hplain : naming.IsPlain) :
    d.name ≠ constantSymbol strings := by
  intro heq
  cases h with
  | storage name named storage symbol ty =>
    have hdots := one_lt_count_dot_constantSymbol strings
    rw [← heq, symbol, count_dot_globalSymbol hplain named] at hdots
    exact absurd hdots (by decide)
  | constant k lt symbol => exact Nat.ne_of_lt lt (constantSymbol_inj (symbol.symm.trans heq))
  | noted k lt program eq =>
    rw [eq] at heq
    exact constantSymbol_ne_cleanupSymbol _ _ heq.symm
  | word dotless ty => exact not_dotless_constantSymbol _ (heq ▸ dotless)

/-- The next noted address of a program has a new symbol. -/
theorem IsGlobal.ne_cleanupSymbol (h : IsGlobal naming strings noted d)
    (hprogram : naming.mode = .program) : d.name ≠ cleanupSymbol noted := by
  intro heq
  cases h with
  | storage name named storage symbol ty =>
    exact globalSymbol_ne_cleanupSymbol hprogram name _ (symbol.symm.trans heq)
  | constant k lt symbol => exact constantSymbol_ne_cleanupSymbol _ _ (symbol.symm.trans heq)
  | noted k lt program eq =>
    rw [eq] at heq
    exact Nat.ne_of_lt lt (cleanupSymbol_inj heq)
  | word dotless ty => exact not_dotless_cleanupSymbol _ (heq ▸ dotless)

end

mutual

theorem assigned_subset_names : (node : Node) → assigned node ⊆ node.names
  | .assignment name value => by simp [assigned, Node.names]
  | .conditional condition thenBlock elseBlock => by
    rw [assigned, Node.names]
    refine append_subset.mpr ⟨?_, ?_⟩
    · exact List.Subset.trans (assignedAll_subset_namesAll thenBlock) (by simp)
    · exact List.Subset.trans (assignedAll_subset_namesAll elseBlock) (by simp)
  | .loop condition body => by
    rw [assigned, Node.names]
    exact List.Subset.trans (assignedAll_subset_namesAll body) (by simp)
  | .literal .. | .identifier .. | .binary .. | .unary .. | .indexedAssignment .. | .functionDef ..
  | .ret .. | .breakLoop | .listLiteral .. | .index .. | .memberAccess .. | .structDef ..
  | .structLiteral .. | .interrogative .. | .relation .. | .importModule .. => by simp [assigned]

theorem assignedAll_subset_namesAll : (nodes : List Node) → assignedAll nodes ⊆ Node.namesAll nodes
  | [] => by simp [assignedAll]
  | node :: rest => by
    rw [assignedAll, Node.namesAll]
    refine append_subset.mpr ⟨?_, ?_⟩
    · exact List.Subset.trans (assigned_subset_names node) (subset_append_left _ _)
    · exact List.Subset.trans (assignedAll_subset_namesAll rest) (subset_append_right _ _)

end

/-! ## Globals -/

section

variable {ctx : Context} {s s' : State}

theorem SameLinkage.defines (h : SameLinkage s s') (hs : Defines ctx s) : Defines ctx s' where
  origin := by rw [h.globals, h.strings, h.cleanup]; exact hs.origin
  once := by rw [h.globals]; exact hs.once
  apart := by rw [h.globals, h.declarations]; exact hs.apart
  dotless := by rw [h.declarations]; exact hs.dotless
  noted := by rw [h.globals, h.cleanup]; exact hs.noted

/-- A global is added whose symbol is that of a variable, or new. -/
theorem Defines.addGlobal {d : Global} (hs : Defines ctx s)
    (hglobals : s'.assembly.globals = s.assembly.globals ++ [d])
    (hdeclarations : s'.assembly.declarations = s.assembly.declarations)
    (hstrings : s.strings ≤ s'.strings) (hlength : s.cleanup.length ≤ s'.cleanup.length)
    (hcleanup : ∀ e ∈ s'.cleanup, e ∈ s.cleanup ∨ (d.name = e.slot ∧ d.ty = .ptr))
    (hd : IsGlobal ctx.naming s'.strings s'.cleanup.length d)
    (hdeclared : d.name ∉ s.assembly.declarations.map (·.name))
    (hnew : (∃ name, Dotless name ∧ d.name = ctx.naming.globalSymbol name) ∨
      d.name ∉ s.assembly.globals.map (·.name)) : Defines ctx s' where
  origin := by
    rw [hglobals]
    intro d' hd'
    rcases mem_append.mp hd' with hd' | hd'
    · exact (hs.origin d' hd').mono hstrings hlength
    · obtain rfl := mem_singleton.mp hd'
      exact hd
  once := by
    intro symbol hsymbol
    rw [hglobals, map_append, count_append]
    by_cases heq : d.name = symbol
    · rcases hnew with ⟨name, hdotless, hname⟩ | hnew
      · exact absurd (heq.symm.trans hname) (hsymbol name hdotless)
      · rw [heq] at hnew
        simp [heq, count_eq_zero.mpr hnew]
    · simpa [count_singleton, heq] using hs.once symbol hsymbol
  apart := by
    rw [hglobals, hdeclarations]
    intro d' hd'
    rcases mem_append.mp hd' with hd' | hd'
    · exact hs.apart d' hd'
    · obtain rfl := mem_singleton.mp hd'
      exact hdeclared
  dotless := by rw [hdeclarations]; exact hs.dotless
  noted := by
    rw [hglobals]
    intro e he
    rcases hcleanup e he with he | hslot
    · obtain ⟨d', hd', hslot⟩ := hs.noted e he
      exact ⟨d', mem_append_left _ hd', hslot⟩
    · exact ⟨d, mem_append_right _ mem_cons_self, hslot⟩

theorem Defines.notMem_declarations (hs : Defines ctx s) {symbol : String}
    (h : ¬ Dotless symbol) : symbol ∉ s.assembly.declarations.map (·.name) := fun hmem => by
  obtain ⟨signature, hsignature, rfl⟩ := mem_map.mp hmem
  exact h (hs.dotless signature hsignature)

theorem defines_start {naming : Naming} (hplain : naming.IsPlain) (target : Target)
    (statements : List Node) (observed shared : List String) :
    Defines ⟨target, naming, observed, shared⟩ (State.start target naming statements) := by
  have hsame := Stage.sameCode_start target naming statements
  have hglobals := (Stage.start_assembly target naming statements).2
  have hcleanup : (State.start target naming statements).cleanup = [] := hsame.cleanup
  refine ⟨by simp [hglobals], by simp [hglobals], by simp [hglobals], ?_, by simp [hcleanup]⟩
  intro signature hsignature
  rw [hsame.assembly] at hsignature
  have hname := names_emptyAssembly_subset target naming (mem_map_of_mem hsignature)
  rcases mem_append.mp hname with hname | hname
  · have hcatalog : ∀ name ∈ Catalog.catalog.map (·.name), Dotless name := by
      unfold Dotless
      decide +kernel
    exact hcatalog _ hname
  · obtain ⟨module, hmodule, heq⟩ := mem_map.mp hname
    have himported : module ∈ naming.importedModules := by
      unfold Naming.initialized at hmodule
      split at hmodule
      · exact hmodule
      · simp at hmodule
    have hdotless : '.' ∉ module.toList := hplain.imported module himported
    rw [← heq, Dotless, initSymbol, String.toList_append]
    simpa using hdotless

theorem Defines.useVariable {symbol : String} {e : Externals} {a : Assembly} (hs : Defines ctx s)
    (hsymbol : Dotless symbol) (hrun : s.externals.useVariable s.assembly symbol = .ok (e, a)) :
    Defines ctx { s with externals := e, assembly := a } := by
  unfold Externals.useVariable at hrun
  split_ifs at hrun with hmem hfree
  · obtain ⟨rfl, rfl⟩ := Prod.mk.inj (Except.ok.inj hrun)
    exact { hs with }
  · obtain ⟨rfl, rfl⟩ := Prod.mk.inj (Except.ok.inj hrun)
    simp only [Bool.or_eq_true, not_or, Bool.not_eq_true] at hfree
    obtain ⟨hglobals, -, hdeclarations⟩ := hasSymbol_eq_false.mp hfree.2
    exact hs.addGlobal rfl rfl (Nat.le_refl _) (Nat.le_refl _) (fun _ he => .inl he)
      (.word hsymbol rfl) hdeclarations (.inr hglobals)

theorem Defines.useFunction {symbol : String} {asked arity : Nat} {e : Externals} {a : Assembly}
    (hs : Defines ctx s) (hsymbol : Dotless symbol)
    (hrun : s.externals.useFunction s.assembly symbol asked = .ok (arity, e, a)) :
    Defines ctx { s with externals := e, assembly := a } := by
  unfold Externals.useFunction at hrun
  split at hrun
  case h_1 =>
    obtain ⟨-, rfl, rfl⟩ : _ ∧ _ ∧ _ := by simpa using hrun
    exact { hs with }
  case h_2 =>
    split_ifs at hrun with hfree
    obtain ⟨-, rfl, rfl⟩ : _ ∧ _ ∧ _ := by simpa using hrun
    simp only [Bool.or_eq_true, decide_eq_true_eq, not_or, Bool.not_eq_true] at hfree
    obtain ⟨hglobals, -, hdeclarations⟩ := hasSymbol_eq_false.mp hfree.2
    have hdeclare : (s.assembly.declare ⟨symbol, .i64, List.replicate asked .i64⟩) =
        { s.assembly with declarations :=
            s.assembly.declarations ++ [⟨symbol, .i64, List.replicate asked .i64⟩] } := by
      rw [declaration?_isSome] at hdeclarations
      simp [Assembly.declare, hdeclarations]
    rw [hdeclare]
    refine { hs with
      apart := fun d hd hmem => ?_
      dotless := fun signature hsignature => ?_ }
    · rw [map_append, mem_append] at hmem
      rcases hmem with hmem | hmem
      · exact hs.apart d hd hmem
      · have heq : d.name = symbol := mem_singleton.mp hmem
        exact hglobals (heq ▸ mem_map_of_mem hd)
    · rcases mem_append.mp hsignature with hsignature | hsignature
      · exact hs.dotless signature hsignature
      · exact mem_singleton.mp hsignature ▸ hsymbol

theorem Stage.Move.defines {g g' : Stage} (hplain : ctx.naming.IsPlain)
    (h : Stage.Move ctx (.of Dotless) g g') (hs : Defines ctx g.state) : Defines ctx g'.state := by
  cases h with
  | define | convert | effect | slot | nullSlot | allocate | release => exact { hs with }
  | reserve e destroy args mem owner has types tracked =>
    have hprogram : ctx.naming.mode = .program := by
      have := tracked.2
      unfold Naming.isLibrary at this
      split at this
      · assumption
      · simp at this
    have hlt : g.state.cleanup.length <
        (g.state.cleanup ++ [(⟨g.cleanupSlot, destroy⟩ : Cleanup)]).length := by simp
    refine hs.addGlobal (d := cleanupGlobal g.state.cleanup.length) rfl rfl (Nat.le_refl _)
      (Nat.le_of_lt hlt) (fun entry hentry => ?_) (.noted _ hlt hprogram rfl)
      (hs.notMem_declarations (not_dotless_cleanupSymbol _)) (.inr fun hmem => ?_)
    · rcases mem_append.mp hentry with hentry | hentry
      · exact .inl hentry
      · exact .inr (mem_singleton.mp hentry ▸ ⟨rfl, rfl⟩)
    · obtain ⟨d, hd, heq⟩ := mem_map.mp hmem
      exact (hs.origin d hd).ne_cleanupSymbol hprogram heq
  | constant text =>
    refine hs.addGlobal rfl rfl (Nat.le_succ _) (Nat.le_refl _) (fun _ he => .inl he)
      (.constant g.state.strings (Nat.lt_succ_self _) rfl)
      (hs.notMem_declarations (not_dotless_constantSymbol _)) (.inr fun hmem => ?_)
    obtain ⟨d, hd, heq⟩ := mem_map.mp hmem
    exact (hs.origin d hd).ne_constantSymbol hplain heq
  | storage name named storage init =>
    exact hs.addGlobal rfl rfl (Nat.le_refl _) (Nat.le_refl _) (fun _ he => .inl he)
      (.storage name named storage rfl rfl rfl rfl)
      (hs.notMem_declarations (not_dotless_globalSymbol hplain named)) (.inl ⟨name, named, rfl⟩)
  | exported name symbol named h absent =>
    obtain ⟨hglobals, -, hdeclarations⟩ := hasSymbol_eq_false.mp absent
    exact hs.addGlobal rfl rfl (Nat.le_refl _) (Nat.le_refl _) (fun _ he => .inl he)
      (.word (dotless_exportSymbol hplain named h) rfl) hdeclarations (.inr hglobals)
  | useVariable symbol e a named h => exact hs.useVariable (dotless_of_isExternal named) h
  | useFunction symbol asked arity e a named h =>
    exact hs.useFunction (dotless_of_isExternal named) h
  | bind name b => exact (sameLinkage_bind _ name b).defines hs
  | note s same => exact same.linkage.defines hs

theorem Pending.defines {statements : List Node} {todo : List Routine}
    (h : Pending ctx statements todo s) (hplain : ctx.naming.IsPlain)
    (hnames : ∀ name ∈ Node.namesAll statements, Dotless name) : Defines ctx s :=
  h.invariant hnames SameLinkage.defines (fun _ hmove => hmove.defines hplain)
    (defines_start hplain _ statements _ _)

theorem IsGlobal.storage_of_symbol {naming : Naming} {strings noted : Nat} {d : Global}
    (h : IsGlobal naming strings noted d) (hplain : naming.IsPlain) {name : String}
    (hname : Dotless name) (hd : d.name = naming.globalSymbol name) :
    d.init.isSome = true ∧ d.constant = false := by
  cases h with
  | storage name' named storage symbol ty defined changes => exact ⟨defined, changes⟩
  | constant k lt symbol =>
    have hdots := one_lt_count_dot_constantSymbol k
    rw [← symbol, hd, count_dot_globalSymbol hplain hname] at hdots
    exact absurd hdots (by decide)
  | noted k lt program eq =>
    rw [eq] at hd
    exact absurd hd.symm (globalSymbol_ne_cleanupSymbol program name k)
  | word dotless ty => exact absurd (hd ▸ dotless) (not_dotless_globalSymbol hplain hname)

theorem Pending.nodup_globals {statements : List Node} {todo : List Routine}
    (h : Pending ctx statements todo s) (hplain : ctx.naming.IsPlain)
    (hnames : ∀ name ∈ Node.namesAll statements, Dotless name) :
    (s.assembly.globals.map (·.name)).Nodup := by
  have hdefines := h.defines hplain hnames
  refine nodup_iff_count.mpr fun symbol => ?_
  by_cases hsymbol : ∃ name, Dotless name ∧ symbol = ctx.naming.globalSymbol name
  · obtain ⟨name, hname, rfl⟩ := hsymbol
    have hstored := h.entered.stored
      (fun name hmem => hnames name (assignedAll_subset_namesAll statements hmem)) name
    -- All globals with this symbol are counted as storage.
    rw [List.count, countP_map]
    refine Nat.le_trans (countP_mono_left fun d hd heq => ?_) hstored
    have heq : d.name = ctx.naming.globalSymbol name := by simpa using heq
    obtain ⟨hinit, hconstant⟩ := (hdefines.origin d hd).storage_of_symbol hplain hname heq
    simp [heq, hinit, hconstant]
  · exact hdefines.once symbol fun name hname heq => hsymbol ⟨name, hname, heq⟩

end

end ScriptCompiler.Lowering
