import ScriptCompiler.Ir.Listing
import ScriptCompiler.Proofs.Calls
import ScriptCompiler.Proofs.Symbols

/-!
# Programs that cost no memory

Where it is known that text makes no value but numbers and words, no step of its lowering reserves
memory, so that nothing is noted for the end of the program. Every instruction is free when it is
written then (`Stage.Emitted.isFree`), and so are all those of a function in the end
(`Stage.Completes.isFree`). The functions of a unit are lowered one after the other from states in
which this holds of those before (`Pending.frugal`). So a program whose text makes no value but numbers
and words reserves no memory and frees none (`generate_costsNothing`), however many functions, loops
and conditionals it has.
-/

namespace ScriptCompiler.Lowering

open Ir

/-- What is known of a unit. -/
def Thrift.ofUnit (naming : Naming) (observed : List String) (statements : List Node) : Thrift :=
  ⟨observed, noteAll [] (topDefinitions naming statements), Node.definedNamesAll statements⟩

/-- An instruction that neither reserves memory nor frees any, the slot of a number, a word or an
address apart, and notes no address. -/
def IsFree : Instr → Prop
  | .alloca _ ty => ty ≠ .named recordTypeName
  | .store _ ptr => ∀ k, ptr.op ≠ .global (cleanupSymbol k)
  | .call _ _ callee _ => callee ∉ Catalog.costly
  | _ => True

/-- Of text it is known that it makes no value but numbers and words. -/
def Lexicon.thrifty (T : Thrift) : Lexicon :=
  ⟨fun _ => True, fun _ => True, fun _ => True, [], some T⟩

/-- The lowering of functions whose text makes no value but numbers and words came to the state. -/
structure Frugal (T : Thrift) (ctx : Context) (s : State) : Prop where
  opens : ∀ r, (Stage.routine s r).Sound ctx (.thrifty T)
  complete : ∀ f ∈ s.assembly.functions, ∀ i ∈ f.instrs, IsFree i
  cleanup : s.cleanup = []

variable {T : Thrift} {ctx : Context} {statements : List Node}

namespace Stage

variable {g g' start : Stage} {i t : Instr}

/-! ## Instructions -/

theorem Callable.notMem_costly (hprogram : ctx.naming.mode = .program)
    (hg : g.Sound ctx (.thrifty T)) (hs : Declares ctx g.state) {ret : Ty} {callee : String}
    {args : List Ty} (h : Callable ctx (.thrifty T) g.state ret callee args) :
    callee ∉ Catalog.costly := by
  cases h with
  | initializer => exact append_notMem_costly (by decide)
  | catalogued mem free => exact free.resolve_right fun h => nomatch h.2
  | routine mem =>
    rw [(hg.routines _ mem).symbol]
    exact functionSymbol_notMem_costly hprogram _
  | external mem =>
    -- What is used of another module is none of what is declared from the start.
    have hcatalogued : ∀ symbol ∈ Catalog.costly, Catalog.isCatalogued symbol = true := by decide
    intro hmem
    exact absurd (hcatalogued _ hmem) (by simp [hs.uncatalogued mem])

theorem Admits.isFree (hprogram : ctx.naming.mode = .program) (hg : g.Sound ctx (.thrifty T))
    (hs : Declares ctx g.state) (h : g.Admits ctx (.thrifty T) i) : IsFree i := by
  have hshape := h.shape
  cases i with
  | alloca => exact hshape.elim
  | store value ptr => exact Place.ne_cleanupSymbol hprogram hshape
  | call => exact Callable.notMem_costly hprogram hg hs hshape
  | _ => trivial

theorem Emitted.isFree (hprogram : ctx.naming.mode = .program) (hg : g.Sound ctx (.thrifty T))
    (hs : Declares ctx g.state) (hcleanup : g.state.cleanup = [])
    (h : Emitted ctx (.thrifty T) g g' i) : IsFree i := by
  cases h with
  | admitted admits => exact admits.isFree hprogram hg hs
  | converted | reloaded => trivial
  | slot mem costs => exact fun hty => nomatch costs hty
  | cleared => simp [IsFree, Value.reg]
  | reserved dst mem owner types costs => exact nomatch costs
  | noted dst mem ty costs => exact nomatch costs
  | released r mem => simp [hcleanup] at mem
  | ended terminator => cases i <;> simp_all [Instr.isTerminator, IsFree]

/-! ## Functions -/

theorem Move.cleanup_eq_nil (h : Move ctx (.thrifty T) g g') (hs : g.state.cleanup = []) :
    g'.state.cleanup = [] := by
  cases h with
  | reserve e destroy args mem owner has types tracked costs => exact nomatch costs
  | bind name b =>
    obtain ⟨_, _, heq, -⟩ := bind_eq g.state name b
    rw [heq]
    exact hs
  | note s same => exact same.cleanup.trans hs
  | _ => exact hs

theorem Completes.isFree (hprogram : ctx.naming.mode = .program)
    (h : Completes ctx (.thrifty T) start g t) (hs : Declares ctx start.state)
    (hcleanup : start.state.cleanup = []) :
    (∀ i ∈ (g.complete t).instrs, IsFree i) ∧ g.state.cleanup = [] := by
  have hnone : ∀ {g : Stage}, Steps ctx (.thrifty T) start g → g.state.cleanup = [] := fun hsteps =>
    hsteps.invariant (I := (·.cleanup = [])) (fun hsame h => hsame.cleanup.trans h)
      (fun _ hmove => hmove.cleanup_eq_nil) h.origin hcleanup
  refine ⟨h.forall_instrs ?_ fun _ => trivial, hnone h.steps⟩
  refine Steps.forall_code (p := fun _ => IsFree) (fun _ _ hi => hi) (fun hsteps _ hemitted => ?_)
    h.fresh h.steps
  exact hemitted.isFree hprogram (Steps.sound hsteps h.origin)
    (hsteps.invariant SameLinkage.declares (fun _ hmove => hmove.declares) h.origin hs)
    (hnone hsteps)

theorem performs_thrifty {nodes : List Node} (h : T.allowsAll nodes = true)
    (hdefined : Node.definedNamesAll nodes ⊆ T.defined) :
    Performs ctx (.thrifty T) Any (block nodes) := by
  refine performs_block nodes ⟨fun _ _ => trivial, fun _ _ => trivial, ?_⟩ (fun _ _ => trivial) ?_
  · rintro _ ⟨⟩
    exact h
  · rintro name hname _ ⟨⟩
    exact hdefined hname

end Stage

/-! ## The unit -/

theorem Pending.frugal (hprogram : ctx.naming.mode = .program) (hT : Stage.Serves ctx statements T)
    {todo : List Routine} {s : State} (h : Pending ctx statements todo s) :
    Frugal T ctx s ∧ todo ⊆ s.functions := by
  induction h with
  | entry h =>
    have hserves : ∀ T', (Lexicon.thrifty T).thrift = some T' → Stage.Serves ctx statements T' := by
      rintro _ ⟨⟩
      exact hT
    obtain ⟨g, t, hdone, rfl, -⟩ := (concludes_entry (fun _ _ => trivial) hserves
      (List.nil_subset _) (Stage.performs_thrifty hT.text hT.defined)).1 _ h
    obtain ⟨hfree, hcleanup⟩ := hdone.isFree hprogram (declares_start _ _ statements _ _)
      (Stage.sameCode_start ctx.target ctx.naming statements).cleanup
    refine ⟨⟨hdone.sound_routine, ?_, hcleanup⟩, List.Subset.refl _⟩
    rw [hdone.functions_finish.1]
    simpa using hfree
  | @body r rest s s' before h ih =>
    obtain ⟨⟨hopens, hcomplete, hcleanup⟩, hsub⟩ := ih
    have hfits := ((hopens r).routines r (hsub List.mem_cons_self)).thrifty T rfl
    -- Parameters are words, and none of them is observed.
    have hparams : ∀ name ∈ r.params, name ∈ ctx.observed → (Lexicon.thrifty T).Costs :=
      fun name hname hmem => absurd (hT.observed ▸ hmem) (hfits.params name hname)
    obtain ⟨g, t, hdone, rfl, -⟩ := (Stage.concludes_bodyFrom (hopens r) hparams
      (fun g _ _ => Stage.performs_thrifty hfits.body hfits.inner g)
      (Stage.loopEnds_of_sound (hopens r))).1 _ h
    have hpersists := Stage.Steps.persists hdone.steps
    obtain ⟨hfree, hcleanup⟩ := hdone.isFree hprogram
      ((sameLinkage_enter s r).declares before.declares) hcleanup
    refine ⟨⟨hdone.sound_routine, ?_, hcleanup⟩, List.Subset.trans ?_ hpersists.routines⟩
    · show ∀ f ∈ g.state.assembly.functions ++ [g.complete t], _
      rw [hpersists.functions]
      exact List.forall_mem_append.mpr ⟨hcomplete, by simpa using hfree⟩
    · exact List.Subset.trans (List.subset_cons_self r rest) hsub

theorem generate_frugal {target : Target} {naming : Naming} {observed : List String}
    {u : Generated} (hprogram : naming.mode = .program)
    (htext : (Thrift.ofUnit naming observed statements).allowsAll statements = true)
    (hu : generate target naming observed statements = .ok u) :
    (∀ f ∈ u.assembly.functions, ∀ i ∈ f.instrs, IsFree i) ∧ u.cleanup = [] := by
  obtain ⟨s, hpending, rfl⟩ := generate_pending rfl hu
  obtain ⟨structs, hstart⟩ := start_eq target naming statements
  have hT : Stage.Serves (Stage.contextOf target naming observed statements) statements
      (Thrift.ofUnit naming observed statements) := by
    refine ⟨rfl, ?_, htext, List.Subset.refl _⟩
    show _ <+: (State.start target naming statements).functions
    rw [hstart]
    exact List.prefix_rfl
  obtain ⟨hfrugal, -⟩ := hpending.frugal hprogram hT
  exact ⟨hfrugal.complete, hfrugal.cleanup⟩

/-- A program whose text makes no value but numbers and words, and asks about the history of no
variable that it assigns, reserves no memory but for the slots of its variables and frees none:
it has no boxed record in a frame, calls no function that reserves memory or frees it, notes nothing
for its end, and stores to no place for noted addresses. -/
theorem generate_costsNothing {target : Target} {naming : Naming} {observed : List String}
    {statements : List Node} {u : Generated} (hprogram : naming.mode = .program)
    (htext : (Thrift.ofUnit naming observed statements).allowsAll statements = true)
    (hu : generate target naming observed statements = .ok u) :
    (∀ f ∈ u.assembly.functions, ∀ dst, .alloca dst (.named recordTypeName) ∉ f.instrs) ∧
    u.assembly.profile.allocations = 0 ∧ u.assembly.profile.releases = 0 ∧ u.cleanup = [] ∧
    ∀ f ∈ u.assembly.functions, ∀ i ∈ f.instrs, ∀ k, i.storesTo (cleanupSymbol k) = false := by
  obtain ⟨hfree, hcleanup⟩ := generate_frugal hprogram htext hu
  have hcalls : ∀ callee ∈ u.assembly.functions.flatMap Func.calls, callee ∉ Catalog.costly := by
    intro callee hcallee
    obtain ⟨f, hf, hcallee⟩ := List.mem_flatMap.mp hcallee
    obtain ⟨i, hi, hcallee⟩ := List.mem_filterMap.mp hcallee
    cases i with
    | call dst ret name args =>
      obtain rfl : name = callee := Option.some.inj hcallee
      exact hfree f hf _ hi
    | _ => simp [Instr.callee?] at hcallee
  refine ⟨?_, ?_, ?_, hcleanup, ?_⟩
  · exact fun f hf dst hmem => hfree f hf _ hmem rfl
  · refine List.countP_eq_zero.mpr fun callee hcallee hmem => hcalls callee hcallee ?_
    exact List.mem_append_left _ (of_decide_eq_true hmem)
  · refine List.countP_eq_zero.mpr fun callee hcallee hmem => hcalls callee hcallee ?_
    exact List.mem_append_right _ (of_decide_eq_true hmem)
  · intro f hf i hi k
    cases i with
    | store value ptr => exact decide_eq_false (hfree f hf _ hi k)
    | _ => rfl

/-- A function of two words, a loop that calls it, and a function in a branch. -/
def summing : List Node :=
  [.functionDef "add" ["a", "b"]
     [.ret (some (.binary "+" (.identifier "a") (.identifier "b")))],
   .assignment "x" (.literal (.number .zero)),
   .loop (.binary "<" (.identifier "x") (.literal (.number ⟨0x4024000000000000⟩)))
     [.assignment "x" (.relation (.identifier "add")
       (.listLiteral [.identifier "x", .literal (.number .one)])),
      .conditional (.identifier "converged")
        [.functionDef "show" ["n"] [.relation (.identifier "print") (.identifier "n")]]
        [.relation (.identifier "print")
          (.relation (.identifier "pow") (.listLiteral [.identifier "x", .identifier "x"]))]]]

/-- Such a program is generated, and costs no memory. -/
theorem costsNothing_summing :
    (Thrift.ofUnit { mode := .program } ["y"] summing).allowsAll summing = true ∧
    ∃ u, generate (.resolve none) { mode := .program } ["y"] summing = .ok u ∧
      u.assembly.functions.length = 3 ∧ u.assembly.profile.allocations = 0 ∧
      u.assembly.profile.releases = 0 ∧ u.cleanup = [] := by
  have htext : (Thrift.ofUnit { mode := .program } ["y"] summing).allowsAll summing = true := by
    decide +kernel
  obtain ⟨u, hu, hlength⟩ := exists_generate (.resolve none) { mode := .program } ["y"] summing
    (fun u => u.assembly.functions.length = 3) (by decide +kernel)
  obtain ⟨-, hallocations, hreleases, hcleanup, -⟩ := generate_costsNothing rfl htext hu
  exact ⟨htext, u, hu, of_decide_eq_true hlength, hallocations, hreleases, hcleanup⟩

end ScriptCompiler.Lowering
