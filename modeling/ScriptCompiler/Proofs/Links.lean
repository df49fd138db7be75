import ScriptCompiler.Proofs.Linkage

/-!
# What a unit adds to its symbols, and how its lowering fails

Lowering takes symbols as it goes: for string constants and noted addresses, for the storage of
variables, for exported words, and for what other modules provide. `Takes` says which symbols code
may take in a state, and `Supplies` which globals. A word that is exported, or left to the linker, is
never the symbol of a function that is noted or complete by then; the symbol of a function that is
noted later may be taken.

A function takes symbols by the moves of its lowering. What one move takes could be taken when the
function began (`Stage.Move.linked`), and so could all that the function takes
(`linked_entryFunction`, `linked_functionBody`). Where the lowering of a unit fails, it is in its entry
function or in one of its functions (`generate_fails`), and with an error of lowering.
-/

namespace ScriptCompiler

/-- An error that can end the lowering of a unit: a mistake in the unit, or a state that lowering
should never reach. -/
def Error.EndsLowering : Error → Prop
  | .verificationFailed _ | .io .. | .inputFormat _ | .toolFailed .. | .toolNotFound _ => False
  | _ => True

/-- The symbols that an assembly declares, or defines outside its functions. -/
def Ir.Assembly.dataSymbols (a : Ir.Assembly) : List String :=
  a.globals.map (·.name) ++ a.declarations.map (·.name)

namespace Lowering

open Ir
open Numeric (assignedAll)

/-- A symbol that code may take in a state when it assigns the variables `names`. -/
inductive Takes (ctx : Context) (names : List String) (s : State) : String → Prop where
  | constant (k : Nat) : Takes ctx names s (constantSymbol k)
  | noted (k : Nat) : Takes ctx names s (cleanupSymbol k)
  | storage {name : String} (top : s.scope = .topLevel) (mem : name ∈ names) :
      Takes ctx names s (ctx.naming.globalSymbol name)
  /-- An exported word, or something of another module. -/
  | word {symbol : String} (unnoted : ∀ r ∈ s.functions, r.symbol ≠ symbol)
      (undefined : symbol ∉ s.assembly.functions.map (·.name))
      (allowed : s.scope = .topLevel → ctx.naming.mayImport symbol = true ∨
        ∃ name ∈ names, ctx.naming.exportSymbol? name = some symbol) :
      Takes ctx names s symbol

/-- A global that code may add in a state when it assigns the variables `names`. -/
inductive Supplies (ctx : Context) (names : List String) (s : State) (d : Global) : Prop where
  /-- A string constant or a noted address. -/
  | hidden (symbol : (∃ k, d.name = constantSymbol k) ∨ ∃ k, d.name = cleanupSymbol k)
      (visibility : d.visibility = .hidden)
  | storage {name : String} (top : s.scope = .topLevel) (mem : name ∈ names)
      (symbol : d.name = ctx.naming.globalSymbol name) (changes : d.constant = false)
      (visibility : d.visibility = ctx.naming.globalVisibility d.name)
  | exported {name : String} (top : s.scope = .topLevel) (mem : name ∈ names)
      (symbol : ctx.naming.exportSymbol? name = some d.name) (word : d.ty = .i64)
      (changes : d.constant = false) (visibility : d.visibility = ctx.naming.globalVisibility d.name)
  /-- A variable of another module. -/
  | external (undefined : d.init = none)

/-- What lowering that assigns the variables `names` does to the symbols of a unit. -/
structure Linked (ctx : Context) (names : List String) (s s' : State) : Prop where
  symbols : ∀ symbol ∈ s'.assembly.dataSymbols,
    symbol ∈ s.assembly.dataSymbols ∨ Takes ctx names s symbol
  supplied : ∀ d ∈ s'.assembly.globals, d ∈ s.assembly.globals ∨ Supplies ctx names s d

/-- What is known of statements: the variables that they read and assign, and the functions that are
noted before. -/
def Lexicon.ofText (nodes : List Node) (s : State) : Lexicon :=
  ⟨fun _ => True, (· ∈ Node.readsAll nodes), (· ∈ assignedAll nodes), s.functions, none⟩

section

variable {ctx : Context} {names : List String} {nodes statements : List Node} {r : Routine}
  {s s' s'' : State} {e : Error}

/-! ## Symbols -/

theorem Linked.refl (ctx : Context) (names : List String) (s : State) : Linked ctx names s s :=
  ⟨fun _ => .inl, fun _ => .inl⟩

theorem Linked.same (h : Linked ctx names s s') (hsame : SameLinkage s' s'') :
    Linked ctx names s s'' := by
  refine ⟨fun symbol hsymbol => h.symbols symbol ?_, ?_⟩
  · rwa [Assembly.dataSymbols, ← hsame.globals, ← hsame.declarations]
  · rw [hsame.globals]
    exact h.supplied

/-- A global is added. -/
theorem Linked.addGlobal {d : Global} (h : Linked ctx names s s') (hd : Takes ctx names s d.name)
    (hsupplies : Supplies ctx names s d) (hglobals : s''.assembly.globals = s'.assembly.globals ++ [d])
    (hdeclarations : s''.assembly.declarations = s'.assembly.declarations) :
    Linked ctx names s s'' := by
  refine ⟨fun symbol hsymbol => ?_, fun d' hd' => ?_⟩
  · rw [Assembly.dataSymbols, hglobals, hdeclarations, List.map_append, List.map_singleton] at hsymbol
    simp only [List.mem_append, List.mem_singleton] at hsymbol
    rcases hsymbol with (hmem | rfl) | hmem
    · exact h.symbols symbol (List.mem_append_left _ hmem)
    · exact .inr hd
    · exact h.symbols symbol (List.mem_append_right _ hmem)
  · rw [hglobals] at hd'
    rcases List.mem_append.mp hd' with hd' | hd'
    · exact h.supplied d' hd'
    · exact .inr (List.mem_singleton.mp hd' ▸ hsupplies)

/-- A function of another module is declared. -/
theorem Linked.declare {signature : Signature} (h : Linked ctx names s s')
    (hsignature : Takes ctx names s signature.name)
    (hassembly : s''.assembly = s'.assembly.declare signature) : Linked ctx names s s'' := by
  have hglobals : s''.assembly.globals = s'.assembly.globals := by
    rw [hassembly, Assembly.declare]
    split <;> rfl
  refine ⟨fun symbol hsymbol => ?_, by rw [hglobals]; exact h.supplied⟩
  rw [Assembly.dataSymbols, hglobals, hassembly] at hsymbol
  rcases List.mem_append.mp hsymbol with hmem | hmem
  · exact h.symbols symbol (List.mem_append_left _ hmem)
  · rcases List.mem_append.mp (names_declare_subset _ _ hmem) with hmem | hmem
    · exact h.symbols symbol (List.mem_append_right _ hmem)
    · exact .inr (List.mem_singleton.mp hmem ▸ hsignature)

namespace Stage

variable {g g' : Stage}

/-- What a move takes could be taken when the function began. -/
theorem Move.linked (h : Move ctx (.ofText nodes s) g g') (hscope : g.state.scope = s.scope)
    (hcomplete : g.state.assembly.functions = s.assembly.functions)
    (hg : Linked ctx (assignedAll nodes) s g.state) : Linked ctx (assignedAll nodes) s g'.state := by
  have hword {symbol : String} (habsent : g.state.assembly.hasSymbol symbol = false)
      (hunnoted : (Lexicon.ofText nodes s).Unnoted symbol)
      (hallowed : s.scope = .topLevel → ctx.naming.mayImport symbol = true ∨
        ∃ name ∈ assignedAll nodes, ctx.naming.exportSymbol? name = some symbol) :
      Takes ctx (assignedAll nodes) s symbol :=
    .word hunnoted (hcomplete ▸ (hasSymbol_eq_false.mp habsent).2.1) hallowed
  cases h with
  | define | convert | effect | slot | nullSlot | allocate | release =>
    refine hg.same ?_
    exact ⟨rfl, rfl, rfl, rfl, rfl⟩
  | reserve => exact hg.addGlobal (.noted _) (.hidden (.inr ⟨_, rfl⟩) rfl) rfl rfl
  | constant => exact hg.addGlobal (.constant _) (.hidden (.inl ⟨_, rfl⟩) rfl) rfl rfl
  | storage name named storage init top assigned =>
    have htop : s.scope = .topLevel := hscope.symm.trans top
    exact hg.addGlobal (.storage htop assigned) (.storage htop assigned rfl rfl rfl) rfl rfl
  | exported name symbol named h absent top assigned unnoted =>
    exact hg.addGlobal (hword absent unnoted fun _ => .inr ⟨name, assigned, h⟩)
      (.exported (hscope.symm.trans top) assigned h rfl rfl rfl) rfl rfl
  | useVariable symbol e a named h defers unnoted =>
    unfold Externals.useVariable at h
    split_ifs at h with hmem hfree
    · obtain ⟨rfl, rfl⟩ := Prod.mk.inj (Except.ok.inj h)
      exact { hg with }
    · obtain ⟨rfl, rfl⟩ := Prod.mk.inj (Except.ok.inj h)
      simp only [Bool.or_eq_true, not_or, Bool.not_eq_true] at hfree
      have htakes := hword hfree.2 unnoted fun top => .inl (defers (hscope.trans top))
      exact hg.addGlobal htakes (.external rfl) rfl rfl
  | useFunction symbol asked arity e a named h defers unnoted =>
    unfold Externals.useFunction at h
    split at h
    case h_1 =>
      obtain ⟨-, rfl, rfl⟩ : _ ∧ _ ∧ _ := by simpa using h
      exact { hg with }
    case h_2 =>
      split_ifs at h with hfree
      obtain ⟨-, rfl, rfl⟩ : _ ∧ _ ∧ _ := by simpa using h
      simp only [Bool.or_eq_true, not_or, Bool.not_eq_true] at hfree
      have htakes := hword hfree.2 unnoted fun top => .inl (defers (hscope.trans top))
      refine Linked.declare hg ?_ rfl
      exact htakes
  | bind name b => exact hg.same (sameLinkage_bind _ name b)
  | note s' same => exact hg.same same.linkage

theorem Steps.linked (start : Stage) (h : Steps ctx (.ofText nodes start.state) start g) :
    Linked ctx (assignedAll nodes) start.state g.state := by
  induction h with
  | refl => exact Linked.refl ctx _ _
  | tail hsteps hstep ih =>
    have hpersists := Steps.persists hsteps
    cases hstep with
    | move h => exact h.linked hpersists.mode hpersists.functions ih
    | label | jump | enterLoop | leaveLoop => exact { ih with }

theorem Steps.globals_eq {P : Lexicon} (h : Steps ctx P g g')
    (hscope : g.state.scope = .function) : g'.state.globals = g.state.globals := by
  induction h with
  | refl => rfl
  | @tail g₁ _ hsteps hstep ih =>
    refine Eq.trans ?_ ih
    have hinside : g₁.state.scope = .function := (Steps.persists hsteps).mode.trans hscope
    cases hstep with
    | move h =>
      cases h with
      | bind name b => simp [State.bind, hinside]
      | note s same => exact same.globals
      | _ => rfl
    | _ => rfl

end Stage

/-! ## Functions -/

theorem performs_ofText (nodes : List Node) (s : State) :
    Stage.Performs ctx (.ofText nodes s) Stage.Any (block nodes) :=
  Stage.performs_block nodes ⟨fun _ _ => trivial, fun _ h => h, nofun⟩ (fun _ h => h) fun _ _ => nofun

theorem linked_entryFunction
    (h : entryFunction statements ctx (State.start ctx.target ctx.naming statements) = .ok ((), s)) :
    Linked ctx (assignedAll statements) (State.start ctx.target ctx.naming statements) s := by
  obtain ⟨g, t, hdone, rfl, -⟩ := (concludes_entry (fun _ _ => trivial) (by nofun) (List.Subset.refl _)
    (performs_ofText statements _)).1 s h
  exact (Stage.Steps.linked (Stage.entry ctx _) hdone.steps).same (Stage.sameLinkage_finish g t)

theorem Pending.concludes {rest : List Routine} (h : Pending ctx statements (r :: rest) s) :
    (∀ s', functionBody r ctx s = .ok ((), s') →
      ∃ g t, Stage.Steps ctx (.ofText r.body s) (Stage.routine s r) g ∧ s' = g.finish t) ∧
    ∀ e, functionBody r ctx s = .error e →
      ∃ g, Stage.Steps ctx (.ofText r.body s) (Stage.routine s r) g ∧
        Fails (.ofText r.body s) g.state e := by
  obtain ⟨hopens, -⟩ := h.opens (p := fun _ => True) fun _ _ => trivial
  have hsound : (Stage.routine s r).Sound ctx (.ofText r.body s) :=
    { hopens r with
      noted := List.Subset.refl _
      globals := fun p hp hlevel => { (hopens r).globals p hp hlevel with }
      locals := fun p hp hscope => { (hopens r).locals p hp hscope with }
      routines := fun r' hr' => { (hopens r).routines r' hr' with }
      observed := nofun
      early := nofun }
  obtain ⟨hok, herror⟩ := Stage.concludes_bodyFrom hsound (fun _ _ _ => rfl)
    (fun g _ _ => performs_ofText r.body s g) (Stage.loopEnds_of_sound (hopens r))
  refine ⟨fun s' hrun => ?_, herror⟩
  obtain ⟨g, t, hdone, hs', -⟩ := hok s' hrun
  exact ⟨g, t, hdone.steps, hs'⟩

theorem Pending.linked {rest : List Routine} (before : Pending ctx statements (r :: rest) s)
    (h : functionBody r ctx s = .ok ((), s')) : Linked ctx (assignedAll r.body) (s.enter r) s' := by
  obtain ⟨g, t, hsteps, rfl⟩ := before.concludes.1 s' h
  exact (Stage.Steps.linked (Stage.routine s r) hsteps).same (Stage.sameLinkage_finish g t)

/-- The lowering of a unit fails in its entry function, or in a function after steps from where it
begins. -/
theorem generate_fails {target : Target} {naming : Naming} {observed : List String}
    (hctx : ctx = Stage.contextOf target naming observed statements)
    (h : generate target naming observed statements = .error e) :
    (∃ g P, Stage.Steps ctx P
        (Stage.entry ctx (State.start ctx.target ctx.naming statements)) g ∧ Fails P g.state e) ∨
      ∃ r rest s g, Pending ctx statements (r :: rest) s ∧
        Stage.Steps ctx (.ofText r.body s) (Stage.routine s r) g ∧
        Fails (.ofText r.body s) g.state e := by
  rcases generate_failure hctx h with hentry | ⟨r, rest, s, hpending, hbody⟩
  · obtain ⟨g, hsteps, hfails⟩ := (concludes_entry (fun _ _ => trivial) (by nofun) (List.nil_subset _)
      (performs_blockOf (p := fun _ => True) fun _ _ => trivial)).2 e hentry
    exact .inl ⟨g, _, hsteps, hfails⟩
  · obtain ⟨g, hsteps, hfails⟩ := hpending.concludes.2 e hbody
    exact .inr ⟨r, rest, s, g, hpending, hsteps, hfails⟩

variable {P : Lexicon}

/-- A variable that is out of reach is read in a function, and is in the frame of the entry
function. -/
theorem Fails.read_of_notAddressable {name slot : String}
    (h : Fails P s (.internal (.notAddressable name slot))) :
    ∃ b, s.scope = .function ∧ s.globals.lookup name = some b ∧ b.isModuleLevel = false ∧
      P.read name := by
  cases h with
  | diagnosed h => exact absurd h (by simp [Error.classify])
  | outOfReach inside bound framed read => exact ⟨_, inside, bound, framed, read⟩

theorem Fails.endsLowering (h : Fails P s e) : e.EndsLowering := by
  cases h with
  | diagnosed h => cases e <;> first | exact trivial | exact absurd h (by simp [Error.classify])
  | _ => trivial

end

end Lowering

end ScriptCompiler
