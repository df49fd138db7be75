import ScriptCompiler.Proofs.Stage.Unit

/-!
# The symbols of a program

The code of a program refers to globals and functions by their symbols. Those that the compiler
makes up for noted addresses begin with `__cleanup.`, and no other symbol of a program is one of
them: constants begin with a dot, the storage of variables with `main.`, and the symbols of other
modules are made of identifiers, which have no dot. The functions that reserve or free memory are
declared from the start, so that no function of the program and none of another module takes the
symbol of one (`Callable.notMem_owning`).

`Tidy` is what this comes to for the state of the lowering, and every step keeps it (`Step.tidy`).
It follows that an instruction that is written like any other neither accesses a noted address nor
reserves or frees memory (`Admits.spares`).
-/

namespace ScriptCompiler

open List

/-- The name has no dot, as identifiers have none. -/
def Dotless (name : String) : Prop := '.' ∉ name.toList

namespace Ir.Instr

/-- The instruction writes the global with a symbol. -/
def storesTo (symbol : String) : Instr → Bool
  | .store _ ptr => ptr.op = .global symbol
  | _ => false

/-- The instruction reads the global with a symbol. -/
def loadsFrom (symbol : String) : Instr → Bool
  | .load _ _ ptr => ptr.op = .global symbol
  | _ => false

/-- The instruction reserves memory that has to be freed. -/
def allocates (i : Instr) : Bool := i.callee?.any (· ∈ Catalog.owners.map (·.1))

/-- The instruction frees such memory. -/
def releases (i : Instr) : Bool := i.callee?.any (· ∈ Catalog.releasing)

end Ir.Instr

namespace Lowering

open Ir

/-- The symbol of the global with a noted address, by its number. -/
def cleanupSymbol (k : Nat) : String := "__cleanup." ++ toString k

/-- The global with a noted address. -/
def cleanupGlobal (k : Nat) : Global :=
  { name := cleanupSymbol k, ty := .ptr, visibility := .hidden, init := some .null }

/-- An instruction that has nothing to do with noted addresses, and neither reserves nor frees
memory. -/
structure Spares (i : Instr) : Prop where
  storesTo : ∀ k, i.storesTo (cleanupSymbol k) = false
  loadsFrom : ∀ k, i.loadsFrom (cleanupSymbol k) = false
  allocates : i.allocates = false
  releases : i.releases = false

/-- What holds of the symbols of a program. -/
structure Tidy (s : State) : Prop where
  /-- Noted addresses are numbered in order. -/
  slots : s.cleanup.map (·.slot) = (List.range s.cleanup.length).map cleanupSymbol
  /-- Each of them has its global, which is the only one with its symbol. -/
  globals : ∀ k, s.assembly.globals.filter (·.name = cleanupSymbol k) =
    if k < s.cleanup.length then [cleanupGlobal k] else []
  vars : ∀ x ∈ s.externals.vars, Dotless x
  functions : ∀ p ∈ s.externals.functions, p.1 ∉ Catalog.owning
  declared : ∀ symbol ∈ Catalog.owning, symbol ∈ s.assembly.declarations.map (·.name)

/-! ## Texts of symbols -/

theorem cleanupSymbol_inj {k j : Nat} (h : cleanupSymbol k = cleanupSymbol j) : k = j := by
  have hlist := congrArg String.toList h
  rw [cleanupSymbol, cleanupSymbol, String.toList_append, String.toList_append] at hlist
  exact toString_nat_inj (String.toList_inj.mp (append_cancel_left hlist))

theorem ne_cleanupSymbol_of_head {symbol : String} {c : Char} {k : Nat}
    (h : symbol.toList.head? = some c) (hc : c ≠ '_') : symbol ≠ cleanupSymbol k := by
  rintro rfl
  rw [cleanupSymbol, String.toList_append] at h
  exact hc (Option.some.inj h).symm

theorem ne_cleanupSymbol_of_dotless {symbol : String} {k : Nat} (h : Dotless symbol) :
    symbol ≠ cleanupSymbol k := by
  rintro rfl
  refine h ?_
  rw [cleanupSymbol, String.toList_append]
  exact mem_append_left _ (by decide)

theorem dotless_of_isExternal {symbol : String} (h : IsExternal Dotless symbol) :
    Dotless symbol := by
  rcases h with h | ⟨module, member, hmodule, hmember, rfl⟩
  · exact h
  · rw [Dotless, memberSymbol, String.toList_append, String.toList_append]
    simp only [mem_append, not_or]
    exact ⟨⟨hmodule, by decide⟩, hmember⟩

theorem append_dot_ne (module front back : List Char) :
    module ++ '.' :: front ≠ '_' :: (module ++ '.' :: back) := by
  induction module with
  | nil => simp
  | cons c module ih =>
    intro heq
    obtain ⟨rfl, heq⟩ := List.cons.inj heq
    exact ih heq

theorem append_underscore_ne (module front back : List Char) (h : front.head? ≠ some '.') :
    module ++ '_' :: front ≠ '_' :: (module ++ '.' :: back) := by
  induction module with
  | nil =>
    intro heq
    obtain ⟨-, rfl⟩ := List.cons.inj heq
    simp at h
  | cons c module ih =>
    intro heq
    obtain ⟨rfl, heq⟩ := List.cons.inj heq
    exact ih heq

/-- The characters of the symbol of a variable of a library. -/
theorem toList_globalSymbol {naming : Naming} {module : String} (h : naming.mode = .library module)
    (name : String) :
    (∃ rest, name.toList = '_' :: rest ∧
      (naming.globalSymbol name).toList = '_' :: (module.toList ++ '.' :: rest)) ∨
    (naming.globalSymbol name).toList = module.toList ++ '.' :: name.toList := by
  unfold Naming.globalSymbol
  rw [h]
  dsimp only
  split
  case h_1 rest hrest => exact .inl ⟨rest, hrest, by simp [String.toList_append]⟩
  case h_2 => exact .inr (by simp [String.toList_append])

/-- Distinct variables have distinct symbols. -/
theorem globalSymbol_injective (naming : Naming) : Function.Injective naming.globalSymbol := by
  intro name name' heq
  have heq := congrArg String.toList heq
  cases hmode : naming.mode with
  | program =>
    simpa [Naming.globalSymbol, hmode, String.toList_append, String.toList_inj] using heq
  | library module =>
    refine String.toList_inj.mp ?_
    rcases toList_globalSymbol hmode name with ⟨rest, hrest, h⟩ | h <;>
      rcases toList_globalSymbol hmode name' with ⟨rest', hrest', h'⟩ | h' <;>
        rw [h, h'] at heq
    · rw [hrest, hrest']
      simpa using heq
    · exact absurd heq.symm (append_dot_ne _ _ _)
    · exact absurd heq (append_dot_ne _ _ _)
    · simpa using heq

/-- The exported word of a variable is not the storage of one. -/
theorem exportSymbol_ne_globalSymbol {naming : Naming} {name symbol : String} (hname : Dotless name)
    (h : naming.exportSymbol? name = some symbol) (name' : String) :
    symbol ≠ naming.globalSymbol name' := by
  unfold Naming.exportSymbol? at h
  cases hmode : naming.mode with
  | program => simp [hmode] at h
  | library module =>
    rw [hmode] at h
    obtain rfl : memberSymbol module name = symbol := by
      dsimp only at h
      split at h
      · simp at h
      · exact Option.some.inj h
    intro heq
    have heq := congrArg String.toList heq
    have hmember : (memberSymbol module name).toList = module.toList ++ '_' :: name.toList := by
      simp [memberSymbol, String.toList_append]
    rw [hmember] at heq
    rcases toList_globalSymbol hmode name' with ⟨rest, -, hsymbol⟩ | hsymbol <;>
      rw [hsymbol] at heq
    · exact append_underscore_ne _ _ _ (fun hhead => hname (mem_of_head? hhead)) heq
    · simp at heq

theorem append_notMem_costly {stem ending : String}
    (h : ∀ symbol ∈ Catalog.costly, ¬ ending.toList <:+ symbol.toList) :
    stem ++ ending ∉ Catalog.costly := by
  intro hmem
  refine h _ hmem ⟨stem.toList, ?_⟩
  rw [String.toList_append]

theorem functionSymbol_notMem_costly {naming : Naming} (hprogram : naming.mode = .program)
    (name : String) : naming.functionSymbol name ∉ Catalog.costly := by
  have hcatalogued : ∀ symbol ∈ Catalog.costly, Catalog.isCatalogued symbol = true := by decide
  rw [Naming.functionSymbol, hprogram]
  dsimp only
  split_ifs with hname
  · exact append_notMem_costly (by decide)
  · intro hmem
    simp [hcatalogued name hmem] at hname

/-! ## Declarations -/

theorem subset_declare (a : Assembly) (signature : Signature) :
    a.declarations ⊆ (a.declare signature).declarations := by
  unfold Assembly.declare
  split
  · exact List.Subset.refl _
  · exact subset_append_left _ _

theorem declaration?_isSome {a : Assembly} {symbol : String} :
    symbol ∈ a.declarations.map (·.name) ↔ (a.declaration? symbol).isSome = true := by
  rw [Assembly.declaration?, List.find?_isSome]
  simp

theorem mem_declare (a : Assembly) (signature : Signature) :
    signature.name ∈ (a.declare signature).declarations.map (·.name) := by
  unfold Assembly.declare
  split
  case isTrue h => exact declaration?_isSome.mpr h
  case isFalse => simp

/-- What is declared one after the other is declared in the end. -/
theorem mem_declare_foldl {α : Type} (f : α → Signature) (xs : List α) :
    ∀ a : Assembly, a.declarations ⊆ (xs.foldl (fun a x => a.declare (f x)) a).declarations ∧
      ∀ x ∈ xs, (f x).name ∈
        (xs.foldl (fun a x => a.declare (f x)) a).declarations.map (·.name) := by
  induction xs with
  | nil => exact fun a => ⟨List.Subset.refl _, by simp⟩
  | cons x xs ih =>
    intro a
    obtain ⟨hsub, hmem⟩ := ih (a.declare (f x))
    refine ⟨List.Subset.trans (subset_declare a (f x)) hsub, forall_mem_cons.mpr ⟨?_, hmem⟩⟩
    exact map_subset _ hsub (mem_declare a (f x))

/-! ## Steps -/

section

variable {s s' : State}

theorem Tidy.congr (h : Tidy s) (hassembly : s'.assembly = s.assembly)
    (hexternals : s'.externals = s.externals) (hcleanup : s'.cleanup = s.cleanup) : Tidy s' where
  slots := by rw [hcleanup]; exact h.slots
  globals := by rw [hassembly, hcleanup]; exact h.globals
  vars := by rw [hexternals]; exact h.vars
  functions := by rw [hexternals]; exact h.functions
  declared := by rw [hassembly]; exact h.declared

theorem Tidy.addGlobal {d : Global} (h : Tidy s) (hd : ∀ k, d.name ≠ cleanupSymbol k) :
    Tidy { s with assembly := s.assembly.addGlobal d } :=
  { h with
    globals := fun k => by
      show (s.assembly.globals ++ [d]).filter _ = _
      rw [filter_append, h.globals]
      simp [hd k] }

/-- An address is noted. -/
theorem Tidy.note {destroy : String} (h : Tidy s) :
    Tidy { s with
      assembly := s.assembly.addGlobal (cleanupGlobal s.cleanup.length)
      cleanup := s.cleanup ++ [⟨cleanupSymbol s.cleanup.length, destroy⟩] } where
  slots := by simp [range_succ, h.slots]
  globals := fun k => by
    show (s.assembly.globals ++ [cleanupGlobal s.cleanup.length]).filter _ = _
    rw [filter_append, h.globals, length_append, length_singleton]
    rcases Nat.lt_trichotomy k s.cleanup.length with hlt | rfl | hgt
    · have hne : cleanupSymbol s.cleanup.length ≠ cleanupSymbol k := fun heq =>
        Nat.ne_of_gt hlt (cleanupSymbol_inj heq)
      rw [if_pos hlt, if_pos (Nat.lt_succ_of_lt hlt)]
      simp [cleanupGlobal, hne]
    · simp [cleanupGlobal]
    · have hne : cleanupSymbol s.cleanup.length ≠ cleanupSymbol k := fun heq =>
        Nat.ne_of_lt hgt (cleanupSymbol_inj heq)
      rw [if_neg (Nat.lt_asymm hgt), if_neg (Nat.not_lt.mpr hgt)]
      simp [cleanupGlobal, hne]
  vars := h.vars
  functions := h.functions
  declared := h.declared

theorem Tidy.useVariable {symbol : String} {e : Externals} {a : Assembly} (h : Tidy s)
    (hsymbol : Dotless symbol) (hrun : s.externals.useVariable s.assembly symbol = .ok (e, a)) :
    Tidy { s with externals := e, assembly := a } := by
  unfold Externals.useVariable at hrun
  split_ifs at hrun with hmem
  · obtain ⟨rfl, rfl⟩ := Prod.mk.inj (Except.ok.inj hrun)
    exact { h with }
  · obtain ⟨rfl, rfl⟩ := Prod.mk.inj (Except.ok.inj hrun)
    have hadded := h.addGlobal (d := ⟨symbol, .i64, .external, none, false⟩) fun _ =>
      ne_cleanupSymbol_of_dotless hsymbol
    exact { hadded with
      vars := fun x hx => (mem_append.mp hx).elim (h.vars x) fun hx => by
        rwa [mem_singleton.mp hx] }

theorem Tidy.useFunction {symbol : String} {asked arity : Nat} {e : Externals} {a : Assembly}
    (h : Tidy s) (hrun : s.externals.useFunction s.assembly symbol asked = .ok (arity, e, a)) :
    Tidy { s with externals := e, assembly := a } := by
  have hglobals := (Stage.useFunction_globals hrun).1
  unfold Externals.useFunction at hrun
  split at hrun
  case h_1 =>
    obtain ⟨-, rfl, rfl⟩ : _ ∧ _ ∧ _ := by simpa using hrun
    exact { h with }
  case h_2 =>
    split_ifs at hrun with hfree
    obtain ⟨-, rfl, rfl⟩ : _ ∧ _ ∧ _ := by simpa using hrun
    -- A symbol that is declared cannot be used so.
    have hsymbol : symbol ∉ Catalog.owning := fun hmem => by
      have hdeclared := declaration?_isSome.mp (h.declared symbol hmem)
      simp [Assembly.hasSymbol, hdeclared] at hfree
    exact { h with
      globals := hglobals ▸ h.globals
      functions := fun p hp => (mem_append.mp hp).elim (h.functions p) fun hp => by
        rwa [mem_singleton.mp hp]
      declared := fun symbol hmem =>
        map_subset _ (subset_declare _ _) (h.declared symbol hmem) }

end

namespace Stage

section

variable {ctx : Context} {g g' : Stage}

/-- A move keeps the symbols of a program in order. -/
theorem Move.tidy (hprogram : ctx.naming.mode = .program) (h : Move ctx (.of Dotless) g g')
    (hs : Tidy g.state) : Tidy g'.state := by
  have hconstant : ∀ k j : Nat, ".str." ++ toString k ≠ cleanupSymbol j := fun k j =>
    ne_cleanupSymbol_of_head (c := '.') (by simp [String.toList_append]) (by decide)
  have hstorage : ∀ name k, ctx.naming.globalSymbol name ≠ cleanupSymbol k := fun name k => by
    rw [Naming.globalSymbol, hprogram]
    exact ne_cleanupSymbol_of_head (c := 'm') (by simp [String.toList_append]) (by decide)
  cases h with
  | define | convert | effect | slot | nullSlot | allocate | release => exact hs.congr rfl rfl rfl
  | reserve e destroy args => exact hs.note.congr rfl rfl rfl
  | constant bytes => exact (hs.addGlobal fun k => hconstant _ k).congr rfl rfl rfl
  | storage name named storage init =>
    exact (hs.addGlobal fun k => hstorage name k).congr rfl rfl rfl
  | exported name symbol named h => simp [Naming.exportSymbol?, hprogram] at h
  | useVariable symbol e a named h => exact hs.useVariable (dotless_of_isExternal named) h
  | useFunction symbol asked arity e a named h => exact hs.useFunction h
  | bind name b =>
    obtain ⟨locals, globals, heq, -⟩ := bind_eq g.state name b
    exact hs.congr (by rw [heq]) (by rw [heq]) (by rw [heq])
  | note s same => exact hs.congr same.assembly same.externals same.cleanup

theorem Step.tidy (hprogram : ctx.naming.mode = .program) (h : Step ctx (.of Dotless) g g')
    (hs : Tidy g.state) : Tidy g'.state := by
  cases h with
  | move h => exact h.tidy hprogram hs
  | label | jump | enterLoop | leaveLoop => exact hs.congr rfl rfl rfl

theorem Steps.tidy (hprogram : ctx.naming.mode = .program) (h : Steps ctx (.of Dotless) g g')
    (hs : Tidy g.state) : Tidy g'.state := by
  induction h with
  | refl => exact hs
  | tail _ h ih => exact h.tidy hprogram ih

theorem Callable.notMem_owning (hprogram : ctx.naming.mode = .program) (hs : Tidy g.state)
    (hg : g.Sound ctx (.of Dotless)) {ret : Ty} {callee : String} {args : List Ty}
    (h : Callable ctx P g.state ret callee args) : callee ∉ Catalog.owning := by
  have hcostly : callee ∉ Catalog.costly → callee ∉ Catalog.owning :=
    mt fun h => Catalog.owning_subset_costly h
  cases h with
  | initializer => exact hcostly (append_notMem_costly (by decide))
  | catalogued mem free =>
    rcases free with free | ⟨hmalloc, -⟩
    · exact hcostly free
    · rw [hmalloc]
      decide
  | routine mem =>
    refine hcostly ?_
    rw [(hg.routines _ mem).symbol]
    exact functionSymbol_notMem_costly hprogram _
  | external mem => exact hs.functions _ mem

/-- The address of a variable is not that of a noted address. -/
theorem Place.ne_cleanupSymbol (hprogram : ctx.naming.mode = .program)
    {v : Value} {ty : Ty} (h : g.Place ctx P v ty) (k : Nat) : v.op ≠ .global (cleanupSymbol k) := by
  intro hop
  rcases h with ⟨-, -, hcell⟩ | ⟨-, -, r, element, base, index, hreg, -⟩
  · rw [hop] at hcell
    cases hcell with
    | own name h =>
      rw [Naming.globalSymbol, hprogram] at h
      exact ne_cleanupSymbol_of_head (c := 'm') (by simp [String.toList_append]) (by decide) h.symm
    | exported name named h => simp [Naming.exportSymbol?, hprogram] at h
  · simp [hop] at hreg

/-- A call of another function neither reserves nor frees memory. -/
theorem spares_of_callee {i : Instr} (hstores : ∀ k, i.storesTo (cleanupSymbol k) = false)
    (hloads : ∀ k, i.loadsFrom (cleanupSymbol k) = false)
    (hcallee : ∀ callee, i.callee? = some callee → callee ∉ Catalog.owning) : Spares i := by
  have hnone : ∀ names ⊆ Catalog.owning, i.callee?.any (· ∈ names) = false := by
    intro names hsub
    cases hi : i.callee? with
    | none => rfl
    | some callee =>
      have hnot : callee ∉ names := fun hmem => hcallee callee hi (hsub hmem)
      simpa using hnot
  exact ⟨hstores, hloads, hnone _ (subset_append_left _ _),
    hnone _ (subset_append_right _ _)⟩

/-- An instruction that is written like any other spares noted addresses. -/
theorem Admits.spares (hprogram : ctx.naming.mode = .program) (hs : Tidy g.state)
    (hg : g.Sound ctx (.of Dotless)) {i : Instr} (h : g.Admits ctx P i) : Spares i := by
  have hshape := h.shape
  cases i with
  | load dst ty ptr =>
    refine spares_of_callee (fun _ => rfl) (fun k => ?_) (by simp [Instr.callee?])
    have hne : ptr.op ≠ .global (cleanupSymbol k) := by
      rcases hshape with hplace | ⟨symbol, hvar, rfl, -⟩
      · exact hplace.ne_cleanupSymbol hprogram k
      · exact fun heq => ne_cleanupSymbol_of_dotless (hs.vars _ hvar) (Operand.global.inj heq)
    simpa [Instr.loadsFrom] using hne
  | store value ptr =>
    refine spares_of_callee (fun k => ?_) (fun _ => rfl) (by simp [Instr.callee?])
    simpa [Instr.storesTo] using Place.ne_cleanupSymbol hprogram hshape k
  | call dst ret name args =>
    refine spares_of_callee (fun _ => rfl) (fun _ => rfl) fun callee hcallee => ?_
    obtain rfl := Option.some.inj hcallee
    exact Callable.notMem_owning hprogram hs hg hshape
  | _ => exact ⟨fun _ => rfl, fun _ => rfl, rfl, rfl⟩

theorem tidy_start (target : Target) (naming : Naming) (statements : List Node) :
    Tidy (State.start target naming statements) := by
  have hsame := sameCode_start target naming statements
  have hglobals := (start_assembly target naming statements).2
  have hcleanup : (State.start target naming statements).cleanup = [] := hsame.cleanup
  refine ⟨by simp [hcleanup], fun k => by simp [hglobals, hcleanup], ?_, ?_, ?_⟩
  · rw [hsame.externals]
    simp
  · rw [hsame.externals]
    simp
  · intro symbol hsymbol
    have hcatalog : ∀ symbol ∈ Catalog.owning, ∃ e ∈ Catalog.catalog, e.name = symbol := by decide
    obtain ⟨e, he, rfl⟩ := hcatalog symbol hsymbol
    rw [hsame.assembly]
    refine map_subset _ (mem_declare_foldl _ naming.initialized _).1 ?_
    exact (mem_declare_foldl (fun e : Catalog.Entry => e.signature target) _ _).2 e he

end

end Stage

end Lowering

end ScriptCompiler
