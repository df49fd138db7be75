import ScriptCompiler.Proofs.Access.Unit
import ScriptCompiler.Proofs.Linkage
import ScriptCompiler.Proofs.Stage.Emits

/-!
# What calls are compiled against

A call is written with a result type and with arguments, and the function behind its symbol is
declared or defined elsewhere: in the catalog, in the table of the functions of the unit, or at the
first use of an external function. `CompiledAgainst` lists what generated code calls, each with the
types that the call has then, and `generate_callsMatch` says that every call is one of these.

The argument is an invariant of steps. A call that is written is known in the state of that moment
(`Emitted.called`), and what is known only grows: functions are noted and external functions are
declared, and none is forgotten (`Called.mono`). In the end every function that was noted has been
lowered (`Pending.lowered`).
-/

namespace ScriptCompiler.Lowering

open Ir

/-- What a call in the function `f` of an assembly is compiled against, with the result type and the
types of the arguments. The functions that the unit defines are `routines`, in the order in which
they are noted. -/
inductive CompiledAgainst (target : Target) (naming : Naming) (routines : List Routine)
    (a : Assembly) (f : Func) : Ty → String → List Ty → Prop where
  /-- The initializer of an imported module. The entry function of a program calls it. -/
  | initializer {module : String} (program : naming.mode = .program)
      (imported : module ∈ naming.importedModules) (entry : a.functions.head? = some f)
      (main : f.name = "main") :
      CompiledAgainst target naming routines a f .void (initSymbol module) []
  /-- A catalogued function, with its signature on the target. -/
  | catalogued {e : Catalog.Entry} (mem : e ∈ Catalog.catalog) :
      CompiledAgainst target naming routines a f (e.ret.lower target) e.name
        (e.params.map (·.lower target))
  /-- A function of the unit, with a word for each parameter of its first definition. -/
  | routine {r : Routine} (first : routines.find? (·.name = r.name) = some r)
      (lowered : ⟨r.symbol, .i64, List.replicate r.params.length .i64⟩ ∈
        a.functions.map Func.signature) :
      CompiledAgainst target naming routines a f .i64 r.symbol
        (List.replicate r.params.length .i64)
  /-- An external function, with as many words as it is declared with. -/
  | external {symbol : String} {arity : Nat}
      (declared : ⟨symbol, .i64, List.replicate arity .i64⟩ ∈ a.declarations)
      (uncatalogued : Catalog.isCatalogued symbol = false)
      (foreign : ∀ module ∈ naming.initialized, symbol ≠ initSymbol module) :
      CompiledAgainst target naming routines a f .i64 symbol (List.replicate arity .i64)

/-- Every call of an assembly matches what it is compiled against. -/
structure CallsMatch (target : Target) (naming : Naming) (routines : List Routine)
    (a : Assembly) : Prop where
  calls : ∀ f ∈ a.functions, ∀ dst ret callee args, .call dst ret callee args ∈ f.instrs →
    CompiledAgainst target naming routines a f ret callee (args.map (·.ty))
  /-- A symbol is declared once, so that all calls of an external function pass the same number of
  words. -/
  declared : (a.declarations.map (·.name)).Nodup

/-- What is called in a scope, when some functions are noted and some are declared as external. -/
inductive Called (ctx : Context) (scope : Scope) (functions : List Routine)
    (externals : List (String × Nat)) : Ty → String → List Ty → Prop where
  | initializer {module : String} (mem : module ∈ ctx.naming.initialized)
      (top : scope = .topLevel) :
      Called ctx scope functions externals .void (initSymbol module) []
  | catalogued {e : Catalog.Entry} (mem : e ∈ Catalog.catalog) :
      Called ctx scope functions externals (e.ret.lower ctx.target) e.name
        (e.params.map (·.lower ctx.target))
  | routine {r : Routine} (mem : r ∈ functions) :
      Called ctx scope functions externals .i64 r.symbol (List.replicate r.params.length .i64)
  | external {symbol : String} {arity : Nat} (mem : (symbol, arity) ∈ externals) :
      Called ctx scope functions externals .i64 symbol (List.replicate arity .i64)

section

variable {ctx : Context} {scope : Scope} {functions functions' : List Routine}
  {externals externals' : List (String × Nat)} {ret : Ty} {callee : String} {args : List Ty}

theorem Called.mono (h : Called ctx scope functions externals ret callee args)
    (hfunctions : functions ⊆ functions') (hexternals : externals ⊆ externals') :
    Called ctx scope functions' externals' ret callee args := by
  cases h with
  | initializer mem top => exact .initializer mem top
  | catalogued mem => exact .catalogued mem
  | routine mem => exact .routine (hfunctions mem)
  | external mem => exact .external (hexternals mem)

theorem Callable.called {P : Lexicon} {s : State} (h : Callable ctx P s ret callee args) :
    Called ctx s.scope s.functions s.externals.functions ret callee args := by
  cases h with
  | initializer mem top early => exact .initializer mem top
  | catalogued mem free => exact .catalogued mem
  | routine mem => exact .routine mem
  | external mem => exact .external mem

end

/-! ## Calls that are written -/

namespace Stage

variable {ctx : Context} {P : Lexicon} {g g' start : Stage}

/-- A call that a step writes is known when it is written, in a scope for which what is admitted
is. -/
theorem Emitted.called_of_callable {scope : Scope} {dst : Option Reg} {ret : Ty} {callee : String}
    {args : List Value} (h : Emitted ctx P g g' (.call dst ret callee args))
    (hs : Declares ctx g.state)
    (hcallable : ∀ types, Callable ctx P g.state ret callee types →
      Called ctx scope g.state.functions g.state.externals.functions ret callee types) :
    Called ctx scope g.state.functions g.state.externals.functions ret callee
      (args.map (·.ty)) := by
  cases h with
  | admitted admits => exact hcallable _ admits.shape
  | @reserved e destroy args dst mem owner types =>
    have hret : ∀ e ∈ Catalog.catalog, e.name ∈ Catalog.owners.map (·.1) → e.ret = .ptr := by
      decide +kernel
    have hptr : e.ret.lower ctx.target = .ptr := by
      rw [hret e mem (List.mem_map_of_mem owner)]
      rfl
    rw [types, ← hptr]
    exact .catalogued mem
  | @released entry r mem =>
    have hall : ∀ name ∈ Catalog.releasing, ⟨name, .void, [.ptr]⟩ ∈ Catalog.catalog := by
      decide +kernel
    exact .catalogued (hall _ (hs.freed entry mem))
  | ended terminator => simp [Instr.isTerminator] at terminator

theorem Emitted.called {dst : Option Reg} {ret : Ty} {callee : String} {args : List Value}
    (h : Emitted ctx P g g' (.call dst ret callee args)) (hs : Declares ctx g.state) :
    Called ctx g.state.scope g.state.functions g.state.externals.functions ret callee
      (args.map (·.ty)) :=
  h.called_of_callable hs fun _ => Callable.called

/-- The calls of a function that is complete are known. -/
theorem Completes.called {t : Instr} (h : Completes ctx P start g t)
    (hstart : Declares ctx start.state) {dst : Option Reg} {ret : Ty} {callee : String}
    {args : List Value} (hcall : .call dst ret callee args ∈ (g.complete t).instrs) :
    Called ctx g.state.scope g.state.functions g.state.externals.functions ret callee
      (args.map (·.ty)) := by
  let known (g : Stage) (i : Instr) : Prop := ∀ dst ret callee args, i = .call dst ret callee args →
    Called ctx g.state.scope g.state.functions g.state.externals.functions ret callee
      (args.map (·.ty))
  have hkeep : ∀ {g g' : Stage} {i : Instr}, Step ctx P g g' → known g i → known g' i := by
    intro g g' i hstep hknown dst ret callee args hi
    have hpersists := hstep.persists
    rw [hpersists.mode]
    exact (hknown dst ret callee args hi).mono hpersists.routines hpersists.uses
  have hnew : ∀ {g g' : Stage} {i : Instr}, Steps ctx P start g → Step ctx P g g' →
      Emitted ctx P g g' i → known g' i := by
    rintro g g' _ hsteps hstep hemitted
    have hs : Declares ctx g.state := hsteps.invariant SameLinkage.declares
      (fun _ hmove => hmove.declares) h.origin hstart
    refine hkeep hstep fun dst ret callee args hi => ?_
    subst hi
    exact hemitted.called hs
  have hcode : ∀ i ∈ g.code, known g i :=
    Steps.forall_code (fun _ => hkeep) hnew h.fresh h.steps
  exact h.forall_instrs hcode (fun v dst ret callee args hi => by simp at hi) _ hcall _ _ _ _ rfl

end Stage

/-! ## The unit -/

/-- A function that is noted was noted before, or is the first of its name. -/
theorem mem_noteAll {rs : List Routine} {r : Routine} :
    ∀ {functions : List Routine}, r ∈ noteAll functions rs →
      r ∈ functions ∨ ((∀ q ∈ functions, q.name ≠ r.name) ∧
        rs.find? (·.name = r.name) = some r) := by
  induction rs with
  | nil => exact fun h => .inl h
  | cons q rs ih =>
    intro functions hr
    have hstep : r ∈ noteAll (noteRoutine functions q) rs := hr
    unfold noteRoutine at hstep
    split at hstep
    case isTrue hsome =>
      -- One of the name of `q` is noted, so that `q` is passed over.
      refine (ih hstep).imp_right fun ⟨hnone, hfind⟩ => ⟨hnone, ?_⟩
      obtain ⟨q', hq', hname⟩ := List.find?_isSome.mp hsome
      have hne : q.name ≠ r.name := fun heq => hnone q' hq' ((of_decide_eq_true hname).trans heq)
      simpa [List.find?_cons, hne] using hfind
    case isFalse hnone =>
      rcases ih hstep with hmem | ⟨hnone', hfind⟩
      · rcases List.mem_append.mp hmem with hmem | hmem
        · exact .inl hmem
        · obtain rfl := List.mem_singleton.mp hmem
          exact .inr ⟨by simpa using hnone, by simp⟩
      · rw [List.forall_mem_append] at hnone'
        have hne : q.name ≠ r.name := hnone'.2 q List.mem_cons_self
        exact .inr ⟨hnone'.1, by simpa [List.find?_cons, hne] using hfind⟩

section

variable {ctx : Context} {statements : List Node} {todo : List Routine} {s : State}

/-- Functions of the unit that are not left have been lowered. -/
theorem Pending.lowered (h : Pending ctx statements todo s) : ∀ r ∈ s.functions,
    r ∈ todo ∨ ⟨r.symbol, .i64, List.replicate r.params.length .i64⟩ ∈
      s.assembly.functions.map Func.signature := by
  induction h with
  | entry h => exact fun r hr => .inl hr
  | @body q rest s s' before h ih =>
    intro r hr
    have hsame : s'.functions = s.functions :=
      (Pending.body before h).entered.functions.trans before.entered.functions.symm
    have hdone := bodyDone before h
    rw [hdone.functions, List.map_append, List.mem_append]
    rcases ih r (hsame ▸ hr) with hr | hr
    · rcases List.mem_cons.mp hr with rfl | hr
      · have hsignature := hdone.signature
        rw [List.map_const'] at hsignature
        exact .inr (.inr (by simp [hsignature]))
      · exact .inl hr
    · exact .inr (.inl hr)

/-- The calls of the functions that are complete are known. Only the first function calls what is
called at top level. -/
theorem Pending.called (h : Pending ctx statements todo s) : ∀ f ∈ s.assembly.functions,
    ∃ scope, (scope = .topLevel → s.assembly.functions.head? = some f ∧
        f.name = ctx.naming.entrySymbol) ∧
      ∀ dst ret callee args, .call dst ret callee args ∈ f.instrs →
        Called ctx scope s.functions s.externals.functions ret callee (args.map (·.ty)) := by
  induction h with
  | @entry s h =>
    intro f hf
    have hdone := entryDone h
    rw [hdone.functions] at hf
    obtain rfl := List.mem_singleton.mp hf
    refine ⟨s.scope, fun _ => ⟨by simp [hdone.functions], hdone.name⟩, ?_⟩
    obtain ⟨g, t, hcompletes, rfl⟩ := entry_completes (p := fun _ => True) (fun _ _ => trivial) h
    intro dst ret callee args hcall
    exact hcompletes.called (declares_start _ _ statements _ _) hcall
  | @body r rest s s' before h ih =>
    intro f hf
    have hdone := bodyDone before h
    obtain ⟨g, t, hcompletes, rfl⟩ := before.completes (p := fun _ => True) (fun _ _ => trivial) h
    have hpersists := Stage.Steps.persists hcompletes.steps
    rw [hdone.functions] at hf ⊢
    rcases List.mem_append.mp hf with hf | hf
    · obtain ⟨scope, htop, hcalls⟩ := ih f hf
      refine ⟨scope, fun h => ?_, fun dst ret callee args hcall => ?_⟩
      · obtain ⟨hhead, hname⟩ := htop h
        exact ⟨by simp [hhead], hname⟩
      · exact (hcalls dst ret callee args hcall).mono hpersists.routines hpersists.uses
    · obtain rfl := List.mem_singleton.mp hf
      refine ⟨.function, fun h => by simp at h, fun dst ret callee args hcall => ?_⟩
      have hscope : g.state.scope = .function := hpersists.mode
      have hstart : Declares ctx (Stage.routine s r).state :=
        (sameLinkage_enter s r).declares before.declares
      have hcalled := hcompletes.called hstart hcall
      rwa [hscope] at hcalled

theorem Declares.uncatalogued (h : Declares ctx s) {symbol : String} {arity : Nat}
    (hmem : (symbol, arity) ∈ s.externals.functions) : Catalog.isCatalogued symbol = false := by
  refine Bool.eq_false_iff.mpr fun hcatalogued => h.foreign _ hmem ?_
  obtain ⟨e, he, hname⟩ := List.mem_map.mp (mem_catalog_names.mpr hcatalogued)
  exact List.mem_map.mpr ⟨_, signature_mem_emptyAssembly ctx.target ctx.naming he, hname⟩

theorem Pending.compiledAgainst (h : Pending ctx statements [] s) {f : Func} {scope : Scope}
    (htop : scope = .topLevel → s.assembly.functions.head? = some f ∧
      f.name = ctx.naming.entrySymbol) {ret : Ty} {callee : String} {args : List Ty}
    (hcalled : Called ctx scope s.functions s.externals.functions ret callee args) :
    CompiledAgainst ctx.target ctx.naming (unitDefinitions ctx.naming statements) s.assembly f ret
      callee args := by
  cases hcalled with
  | @initializer module mem top =>
    obtain ⟨hhead, hname⟩ := htop top
    unfold Naming.initialized at mem
    split at mem
    case h_1 hprogram =>
      rw [Naming.entrySymbol, hprogram] at hname
      exact .initializer hprogram mem hhead hname
    case h_2 => simp at mem
  | catalogued mem => exact .catalogued mem
  | @routine r mem =>
    have hlowered := (h.lowered r mem).resolve_left List.not_mem_nil
    rw [h.entered.functions] at mem
    have hfirst := ((mem_noteAll mem).resolve_left List.not_mem_nil).2
    exact .routine hfirst hlowered
  | @external _ arity mem =>
    have hforeign := h.declares.foreign (callee, arity) mem
    refine .external (h.declares.external (callee, arity) mem) ?_ fun module hmodule heq => ?_
    · exact h.declares.uncatalogued mem
    · refine hforeign ?_
      rw [show (callee, arity).1 = initSymbol module from heq]
      exact (mem_declare_foldl (fun module => ⟨initSymbol module, .void, []⟩)
        ctx.naming.initialized _).2 module hmodule

end

/-- Every call of a unit matches what it is compiled against. -/
theorem generate_callsMatch {target : Target} {naming : Naming} {observed : List String}
    {statements : List Node} {u : Generated}
    (hu : generate target naming observed statements = .ok u) :
    CallsMatch target naming (unitDefinitions naming statements) u.assembly := by
  obtain ⟨s, hpending, rfl⟩ := generate_pending rfl hu
  refine ⟨fun f hf dst ret callee args hcall => ?_, hpending.declares.distinct⟩
  obtain ⟨scope, htop, hcalls⟩ := hpending.called f hf
  exact hpending.compiledAgainst htop (hcalls dst ret callee args hcall)

/-- A program that calls something of each sort, among them the function that reserves memory of a
size. -/
def calling : List Node :=
  [.functionDef "f" ["a", "b"] [.ret (some (.binary "+" (.identifier "a") (.identifier "b")))],
    .structDef "pair" ["x", "y"],
    .assignment "p" (.structLiteral "pair" [.literal (.number .one), .literal (.number .zero)]),
    .relation (.identifier "print") (.relation (.identifier "f")
      (.listLiteral [.literal (.number .one), .literal (.number .zero)])),
    .relation (.memberAccess (.identifier "m") "g") (.literal (.number .one))]

theorem callsMatch_calling :
    ∃ u, generate (.resolve (some "wasm32")) { mode := .program, importedModules := ["m"] } []
        calling = .ok u ∧
      ((u.assembly.functions.flatMap Func.instrs).filterMap fun
        | .call _ ret callee args => some (ret, callee, args.map (·.ty))
        | _ => none) = [(.void, "m_init", []), (.ptr, "malloc", [.int 32]),
          (.i64, "f", [.i64, .i64]), (.void, "eigen_print_double", [.double]),
          (.i64, "m_g", [.i64])] ∧
      CallsMatch (.resolve (some "wasm32")) { mode := .program, importedModules := ["m"] }
        (unitDefinitions { mode := .program, importedModules := ["m"] } calling) u.assembly := by
  obtain ⟨u, hu, hcalls⟩ := exists_generate (.resolve (some "wasm32"))
    { mode := .program, importedModules := ["m"] } [] calling
    (fun u => ((u.assembly.functions.flatMap Func.instrs).filterMap fun
      | .call _ ret callee args => some (ret, callee, args.map (·.ty))
      | _ => none) = [(.void, "m_init", []), (.ptr, "malloc", [.int 32]),
        (.i64, "f", [.i64, .i64]), (.void, "eigen_print_double", [.double]),
        (.i64, "m_g", [.i64])]) (by decide +kernel)
  exact ⟨u, hu, of_decide_eq_true hcalls, generate_callsMatch hu⟩

end ScriptCompiler.Lowering
