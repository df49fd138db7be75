import ScriptCompiler.Proofs.Stage.Stmt

/-!
# The functions of a unit as completed stages

The entry function and the functions of a unit are lowered one after the other, each from a fresh
stage by steps to a stage whose last block a `ret` completes (`Completes`), or to one where lowering
fails.
-/

namespace ScriptCompiler.Lowering

open Ir List

namespace Stage

/-- The start of the entry function. The end of a program is a label from the start. -/
def entry (ctx : Context) (s : State) : Stage where
  head := []
  done := []
  label := "entry"
  instrs := []
  reserved := if ctx.naming.isLibrary then [] else [exitLabel]
  live := fun _ => []
  state := s

/-- The start of a function. -/
def routine (s : State) (r : Routine) : Stage where
  head := []
  done := []
  label := "entry"
  instrs := []
  reserved := []
  live := fun _ => []
  state := s.enter r

/-- Nothing has been written yet. -/
structure Fresh (g : Stage) : Prop where
  head : g.head = []
  done : g.done = []
  label : g.label = "entry"
  instrs : g.instrs = []
  live : g.live = fun _ => []
  params : g.func.paramRegs = range g.next

theorem fresh_entry {ctx : Context} {s : State}
    (h : s.builder.func.paramRegs = range s.builder.nextReg) : (entry ctx s).Fresh :=
  ⟨rfl, rfl, rfl, rfl, rfl, h⟩

/-- Registers are numbered from the parameters on. -/
theorem paramRegs_ofFunc (name : String) (ret : Ty) (params : List Ty) :
    (Func.skeleton name ret params).paramRegs =
      range (Builder.ofFunc (.skeleton name ret params)).nextReg := by
  rw [Func.paramRegs_skeleton, Builder.ofFunc, Func.skeleton, length_map, length_zipIdx]

theorem fresh_routine (s : State) (r : Routine) : (routine s r).Fresh :=
  ⟨rfl, rfl, rfl, rfl, rfl, paramRegs_ofFunc _ _ _⟩

/-- The function that a terminator completes. -/
def complete (g : Stage) (t : Instr) : Func := (g.effect t).func

/-- The state when the function that a terminator completes is added to the assembly. -/
def finish (g : Stage) (t : Instr) : State :=
  { (g.effect t).state with assembly := g.state.assembly.addFunction (g.complete t) }

/-- The function that begins at `start` is complete when `t` is added at `g`. -/
structure Completes (ctx : Context) (P : Lexicon) (start g : Stage) (t : Instr) : Prop where
  fresh : start.Fresh
  origin : start.Sound ctx P
  steps : Steps ctx P start g
  /-- Every label that was handed out has its block. -/
  settled : g.reserved = []
  returns : ∃ v, t = .ret v
  operands : ∀ v ∈ t.operands, g.Has v
  types : t.expected? g.func.ret = none
  /-- A program returns in its last block. -/
  last : Tracks ctx g.state → g.label = exitLabel

theorem Completes.sound {ctx : Context} {P : Lexicon} {start g : Stage} {t : Instr}
    (h : Completes ctx P start g t) : g.Sound ctx P :=
  Steps.sound h.steps h.origin

section

variable {ctx : Context} {P : Lexicon} {g g' start : Stage}

/-! ## Fresh stages -/

/-- A stage at the start of a function is sound. -/
theorem sound_fresh {s : State} {name : String} {ret : Ty} {params : List Ty}
    {reserved : List String} (hbuilder : s.builder = .ofFunc (.skeleton name ret params))
    (hreserved : ∀ l ∈ reserved, l = exitLabel) (hlocals : s.locals = [])
    (hloops : s.loopEnds = [])
    (hglobals : ∀ p ∈ s.globals, p.2.isModuleLevel ∨ s.scope = .topLevel →
      Binds ctx P ⟨[], [], "entry", [], reserved, fun _ => [], s⟩ p.2)
    (hroutines : ∀ r ∈ s.functions, Fits ctx P r)
    (hexternals : ∀ x ∈ s.externals.vars, ∃ d ∈ s.assembly.globals, d.name = x ∧ d.ty = .i64)
    (hcleanup : ∀ e ∈ s.cleanup, e.slot ∈ s.assembly.globals.map (·.name))
    (hret : ret = resultType ctx s) (hnoted : P.noted ⊆ s.functions)
    (hobserved : ∀ T, P.thrift = some T → ctx.observed = T.observed)
    (hearly : ∀ T, P.thrift = some T → T.functions <+: s.functions) :
    Sound ctx P ⟨[], [], "entry", [], reserved, fun _ => [], s⟩ := by
  have hfunc : s.builder.func = .skeleton name ret params := by rw [hbuilder]; rfl
  constructor
  case layout => exact congrArg Func.blocks hfunc
  case current => exact congrArg Builder.current hbuilder
  case entryInsert => exact congrArg Builder.entryInsert hbuilder
  case inner => simp
  case scope_lt =>
    intro p hp
    have hp : p ∈ s.builder.func.params := by
      simpa [scope, frame, typing, Stage.func] using hp
    have hreg : p.1 ∈ s.builder.func.paramRegs := mem_map.mpr ⟨p, hp, rfl⟩
    rw [hfunc, paramRegs_ofFunc, ← hbuilder] at hreg
    exact mem_range.mp hreg
  case live_lt => simp
  case casts =>
    intro c hc
    have hc : c ∈ s.builder.casts := hc
    rw [hbuilder] at hc
    simp [Builder.ofFunc] at hc
  case below =>
    intro l hl
    simp only [labels, body, nil_append, map_cons, map_nil, cons_append,
      mem_cons] at hl
    rcases hl with rfl | hl
    · exact .inl rfl
    · exact .inr (.inl (hreserved l hl))
  case fresh =>
    intro l hl
    rw [hreserved l hl]
    show exitLabel ∉ ["entry"]
    decide
  case targets => simp [targets, body]
  case loopEnds =>
    intro l hl
    have hl : l ∈ s.loopEnds := hl
    simp [hloops] at hl
  case globals => exact hglobals
  case locals =>
    intro p hp
    have hp : p ∈ s.locals := hp
    simp [hlocals] at hp
  case routines => exact hroutines
  case externals => exact hexternals
  case cleanup => exact hcleanup
  case ret => exact (congrArg Func.ret hfunc).trans hret
  case noted => exact hnoted
  case observed => exact hobserved
  case early => exact hearly

theorem binds_of_moduleLevel {b : Binding} (h : g.Binds ctx P b) (hlevel : b.isModuleLevel = true)
    (hglobals : g.globals ⊆ g'.globals) : g'.Binds ctx P b := by
  obtain ⟨hholds, ⟨hty, hcell⟩, hcosts⟩ := h
  refine ⟨hholds, ⟨hty, ?_⟩, hcosts⟩
  cases hop : b.slot.op with
  | reg r => simp [Binding.isModuleLevel, Value.reg?, hop] at hlevel
  | global name =>
    simp only [hop] at hcell ⊢
    exact isVariable_mono hcell hglobals
  | int value => simp [hop] at hcell
  | float value => simp [hop] at hcell
  | null => simp [hop] at hcell

theorem sound_routine (hg : g.Sound ctx P) (t : Instr) {r : Routine}
    (hloops : g.state.loopEnds = []) : (routine (g.finish t) r).Sound ctx P := by
  refine sound_fresh rfl (by simp) rfl hloops ?_ hg.routines hg.externals hg.cleanup rfl hg.noted
    hg.observed hg.early
  intro p hp hlevel
  have hlevel : p.2.isModuleLevel = true := hlevel.resolve_right (by simp [finish, State.enter])
  exact binds_of_moduleLevel (hg.globals p hp (.inl hlevel)) hlevel (List.Subset.refl _)

theorem SameCode.trans {s s' s'' : State} (h : SameCode ctx P s s') (h' : SameCode ctx P s' s'') :
    SameCode ctx P s s'' where
  builder := h'.builder.trans h.builder
  assembly := h'.assembly.trans h.assembly
  externals := h'.externals.trans h.externals
  scope := h'.scope.trans h.scope
  globals := h'.globals.trans h.globals
  locals := h'.locals.trans h.locals
  loopEnds := h'.loopEnds.trans h.loopEnds
  cleanup := h'.cleanup.trans h.cleanup
  labels := h'.labels.trans h.labels
  strings := h'.strings.trans h.strings
  kept := h.kept.trans h'.kept
  added := fun r hr => (h'.added r hr).elim (h.added r) .inr
  distinct := h'.distinct ∘ h.distinct

theorem sameCode_declareAll {statements : List Node}
    (h : ∀ name ∈ Node.namesAll statements, P name)
    (hT : ∀ T, P.thrift = some T → T.allowsAll statements = true)
    (hd : ∀ name ∈ Node.definedNamesAll statements, P.defines name) :
    ∀ s : State, SameCode ctx P s (statements.foldl (Lowering.declare ctx.naming) s) := by
  induction statements with
  | nil => exact fun s => SameCode.refl ctx P s
  | cons node rest ih =>
    simp only [Node.namesAll, forall_mem_append] at h
    simp only [Thrift.allowsAll, Bool.and_eq_true] at hT
    simp only [Node.definedNamesAll, forall_mem_append] at hd
    intro s
    have hnode : SameCode ctx P s (Lowering.declare ctx.naming s node) := by
      unfold Lowering.declare
      split
      case h_1 name params body =>
        refine sameCode_addRoutine ⟨rfl, fun n hn => h.1 n ?_, fun T hsome => ?_⟩
        · simp [Node.names, show n ∈ Node.namesAll body from hn]
        · exact fits_of_allows (hT T hsome).1 fun n hn => hd.1 n hn T hsome
      case h_2 => exact { SameCode.refl ctx P s with }
      case h_3 => exact SameCode.refl ctx P s
    exact hnode.trans (ih h.2 (fun T hsome => (hT T hsome).2) hd.2 _)

/-- What is known before a unit is looked at is true of it. -/
structure Serves (ctx : Context) (statements : List Node) (T : Thrift) : Prop where
  observed : ctx.observed = T.observed
  early : T.functions <+: (State.start ctx.target ctx.naming statements).functions
  text : T.allowsAll statements = true
  defined : Node.definedNamesAll statements ⊆ T.defined

theorem sound_entry {statements : List Node} (h : ∀ name ∈ Node.namesAll statements, P name)
    (hT : ∀ T, P.thrift = some T → Serves ctx statements T)
    (hnoted : P.noted ⊆ (State.start ctx.target ctx.naming statements).functions) :
    (entry ctx (State.start ctx.target ctx.naming statements)).Sound ctx P := by
  have hsame : SameCode ctx P _ (State.start ctx.target ctx.naming statements) :=
    sameCode_declareAll h (fun T hsome => (hT T hsome).text)
      (fun _ hname T hsome => (hT T hsome).defined hname) _
  refine sound_fresh hsame.builder ?_ hsame.locals hsame.loopEnds ?_ ?_ ?_ ?_ ?_ hnoted
    (fun T hsome => (hT T hsome).observed) fun T hsome => (hT T hsome).early
  · split <;> simp
  · simp [hsame.globals]
  · exact fun r hr => (hsame.added r hr).resolve_left not_mem_nil
  · simp [hsame.externals]
  · simp [hsame.cleanup]
  · rw [resultType, hsame.scope]

/-! ## The end of a function -/

/-- Every successful run of `m` from `g` completes the function that began at `start`, by a
terminator at a stage of which `Q` holds, and every other run proceeds by steps to where it fails. -/
def Concludes (ctx : Context) (P : Lexicon) (start g : Stage) (m : Lower Unit)
    (Q : Stage → Instr → Prop) : Prop :=
  start.Fresh → start.Sound ctx P → Steps ctx P start g →
    (∀ ⦃a : Unit⦄ ⦃s : State⦄, m ctx g.state = .ok (a, s) →
      ∃ g' t, Completes ctx P start g' t ∧ s = g'.finish t ∧ Q g' t) ∧
    ∀ ⦃e : Error⦄, m ctx g.state = .error e →
      ∃ g', Steps ctx P g g' ∧ Fails P g'.state e

section

variable {Q : Stage → Instr → Prop}

theorem Concludes.bind {α : Type} {m : Lower α} {f : α → Lower Unit} {R : Stage → α → Prop}
    (h : Runs ctx P g m R)
    (k : ∀ g' a, Steps ctx P g g' → R g' a → Concludes ctx P start g' (f a) Q) :
    Concludes ctx P start g (m >>= f) Q := by
  intro hfresh horigin hsteps
  have hleads := h (Steps.sound hsteps horigin)
  refine ⟨fun a s hrun => ?_, fun e hrun => ?_⟩
  · obtain ⟨b, s', hm, hrest⟩ := run_bind hrun
    obtain ⟨g', hS, -, rfl, hQ⟩ := hleads.1 hm
    exact (k g' b hS hQ hfresh horigin (hsteps.trans hS)).1 hrest
  · rcases run_bind_error hrun with hm | ⟨b, s', hm, hrest⟩
    · exact hleads.2 hm
    · obtain ⟨g', hS, -, rfl, hQ⟩ := hleads.1 hm
      obtain ⟨g'', hS', hfails⟩ := (k g' b hS hQ hfresh horigin (hsteps.trans hS)).2 hrest
      exact ⟨g'', hS.trans hS', hfails⟩

theorem Concludes.seq {m m' m'' : Lower Unit} {R : Stage → Unit → Prop}
    (h : Runs ctx P g (do m; m') R)
    (k : ∀ g', Steps ctx P g g' → R g' () → Concludes ctx P start g' m'' Q) :
    Concludes ctx P start g (do m; m'; m'') Q := by
  have hb := Concludes.bind (f := fun _ => m'') h fun g' _ hS hQ => k g' hS hQ
  rwa [bind_assoc] at hb

theorem Concludes.bind_of_run {α : Type} {m : Lower α} {a : α} {f : α → Lower Unit}
    (hm : g.Sound ctx P → m ctx g.state = .ok (a, g.state))
    (h : Concludes ctx P start g (f a) Q) : Concludes ctx P start g (m >>= f) Q := by
  refine Concludes.bind (R := fun g' b => g' = g ∧ b = a)
    (Leads.sound fun hg => Leads.run .refl id (hm hg) ⟨rfl, rfl⟩) ?_
  rintro _ _ - ⟨rfl, rfl⟩
  exact h

theorem Concludes.sound {m : Lower Unit} (h : g.Sound ctx P → Concludes ctx P start g m Q) :
    Concludes ctx P start g m Q :=
  fun hfresh horigin hsteps => h (Steps.sound hsteps horigin) hfresh horigin hsteps

theorem Concludes.isTerminated_bind {f : Bool → Lower Unit}
    (k : Concludes ctx P start g (f false) Q) :
    Concludes ctx P start g (Lowering.isTerminated >>= f) Q := by
  refine Concludes.bind_of_run (fun hg => ?_) k
  show Except.ok (g.state.builder.isTerminated, g.state) = _
  rw [hg.isTerminated]

theorem concludes_ret {v : Option Value} (hclosed : g.reserved = [])
    (hops : ∀ w ∈ v.toList, g.Has w) (htypes : (Instr.ret v).expected? g.func.ret = none)
    (hlast : Tracks ctx g.state → g.label = exitLabel) (hQ : Q g (.ret v)) :
    Concludes ctx P start g (do Emit.ret v; finishFunction) Q := by
  intro hfresh horigin hsteps
  refine ⟨fun a s hrun => ?_, fun e hrun => nomatch hrun⟩
  obtain rfl : g.finish (.ret v) = s := congrArg Prod.snd (Except.ok.inj hrun)
  exact ⟨g, .ret v, ⟨hfresh, horigin, hsteps, hclosed, ⟨v, rfl⟩, hops, htypes, hlast⟩, rfl, hQ⟩

end

/-! ## The entry function -/

/-- Noted addresses are freed, each in turn. -/
def releaseAll (g : Stage) (entries : List Cleanup) : Stage := entries.foldl Stage.release g

/-- After the statements of a program control goes to its last block, which was not there before. It
frees what was noted and returns zero. The initializer of a library only returns. -/
structure Exits (ctx : Context) (g g' : Stage) (t : Instr) : Prop where
  program : Tracks ctx g.state → exitLabel ∈ g.reserved ∧
    g' = (g.goto (.br exitLabel) exitLabel).releaseAll g.state.cleanup ∧
    t = .ret (some (.int .i32 0))
  library : ctx.naming.isLibrary = true → g' = g ∧ t = .ret none

/-- The entry function consists of the calls of initializers, the statements, which `R` relates, and
its end. -/
def Enters (ctx : Context) (P : Lexicon) (R : Stage → Stage → Prop) (start g : Stage)
    (t : Instr) : Prop :=
  ∃ g₁ g₂, emit (callInits ctx.naming) ctx start.state = .ok ((), g₁.state) ∧ g₁.Sound ctx P ∧
    Steps ctx P start g₂ ∧ R g₁ g₂ ∧ Exits ctx g₂ g t

theorem length_instrs_push_le (b : Builder) (i : Instr) :
    (b.push i).func.instrs.length ≤ b.func.instrs.length + 1 := by
  have hmodify (blocks : List Block) : ∀ index,
      ((blocks.modify index (·.push i)).flatMap (·.instrs)).length ≤
        (blocks.flatMap (·.instrs)).length + 1 := by
    induction blocks with
    | nil => simp
    | cons block rest ih =>
      intro index
      cases index with
      | zero => simp [Block.push]; omega
      | succ index =>
        have := ih index
        simp only [modify_succ_cons, flatMap_cons, length_append]
        omega
  exact hmodify b.func.blocks b.current

/-- The initializers that are left are called while fewer instructions than their number stand in
the function. -/
theorem emits_callInits_of_length {modules : List String} : ∀ {g : Stage},
    g.state.scope = .topLevel → modules ⊆ ctx.naming.initialized →
      g.func.instrs.length + modules.length ≤ ctx.naming.initialized.length →
      Emits ctx P g (modules.forM fun module => Emit.callVoid (initSymbol module) [])
        fun _ _ => True := by
  induction modules with
  | nil => exact fun _ _ _ => Emits.pure trivial
  | cons module rest ih =>
    intro g htop hsub hlength
    rw [length_cons] at hlength
    have hadmits : g.Admits ctx P (.call none .void (initSymbol module) []) :=
      ⟨by simp [Instr.operands], rfl,
        .initializer (hsub mem_cons_self) htop (by rw [Stage.func] at hlength; omega)⟩
    have hcall : Emits ctx P g (Emit.callVoid (initSymbol module) []) fun g' _ =>
        g' = g.effect (.call none .void (initSymbol module) []) :=
      Emits.move (.effect _ rfl rfl hadmits) rfl rfl
    refine hcall.bind ?_
    rintro _ _ - rfl
    have hpush := length_instrs_push_le g.state.builder (.call none .void (initSymbol module) [])
    refine ih htop (List.Subset.trans (subset_cons_self _ _) hsub) ?_
    show (g.state.builder.push _).func.instrs.length + _ ≤ _
    rw [Stage.func] at hlength
    omega

theorem emits_callInits {s : State} (htop : s.scope = .topLevel) :
    Emits ctx P (entry ctx s) (callInits ctx.naming) fun _ _ => True := by
  intro hentry
  have hempty : (entry ctx s).func.instrs = [] := by
    rw [Func.instrs, hentry.layout]
    rfl
  exact emits_callInits_of_length htop (List.Subset.refl _) (by simp [hempty]) hentry

theorem emits_destroyAll {entries : List Cleanup} :
    ∀ {g : Stage}, g.label = exitLabel → Tracks ctx g.state → (∀ e ∈ entries, e ∈ g.state.cleanup) →
      Emits ctx P g (destroyAll entries) fun g' _ => g' = g.releaseAll entries := by
  induction entries with
  | nil => exact fun _ _ _ => Emits.pure rfl
  | cons entry rest ih =>
    intro g hlast htracks hmem
    have hmove : Move ctx P g (g.release entry) :=
      .release entry (hmem entry (by simp)) hlast htracks
    have hentry : Emits ctx P g (do
        let address ← Emit.load .ptr (.global entry.slot)
        Emit.callVoid entry.destroy [address]) fun g' _ => g' = g.release entry :=
      Emits.move hmove rfl rfl
    refine hentry.bind ?_
    rintro _ _ - rfl
    exact ih hlast htracks fun e he => hmem e (by simp [he])

theorem concludes_finishEntry (htop : g.state.scope = .topLevel)
    (hreserved : ∀ l, l ∈ g.reserved ↔ l ∈ (entry ctx g.state).reserved)
    (hready : g.Ready ctx) (hloops : g.state.loopEnds = []) :
    Concludes ctx P start g finishEntry (Exits ctx g) := by
  unfold finishEntry
  refine Concludes.bind_of_run (fun _ => rfl) ?_
  cases hlib : ctx.naming.isLibrary with
  | true =>
    refine Concludes.isTerminated_bind ?_
    have hclosed : g.reserved = [] := by
      simpa [entry, hlib, eq_nil_iff_forall_not_mem] using hreserved
    have hnot : ¬ Tracks ctx g.state := fun ht => by simp [Tracks, hlib] at ht
    refine Concludes.sound fun hg => concludes_ret hclosed (by simp) ?_ (fun ht => absurd ht hnot)
      ⟨fun ht => absurd ht hnot, fun _ => ⟨rfl, rfl⟩⟩
    simp [Instr.expected?, hg.ret, resultType, htop, hlib]
  | false =>
    have hreserved : ∀ l, l ∈ g.reserved ↔ l = exitLabel := by
      simpa [entry, hlib] using hreserved
    have hexit := hready.exit ⟨htop, hlib⟩
    refine Concludes.seq (runs_leave (fun hg => hg.run_unlessTerminated _) (.inl hexit.1) hexit.2
      hexit.1 (.inr rfl) (by simp [hloops])) ?_
    rintro g1 - ⟨hg1, -⟩
    have hlabel : g1.label = exitLabel := by rw [hg1]; rfl
    have htop1 : g1.state.scope = .topLevel := by rw [hg1]; exact htop
    have hclosed : g1.reserved = [] := by
      rw [hg1]
      exact filter_eq_nil_iff.mpr fun l hl => by simp [(hreserved l).mp hl]
    have hdestroy : Lowers ctx P g1 (liftM (destroyAll g1.state.cleanup)) fun g' _ =>
        Grows g1 g' ∧ g' = g1.releaseAll g1.state.cleanup :=
      (emits_destroyAll hlabel ⟨htop1, hlib⟩ fun _ he => he).lifted.mono fun _ _ hm h => ⟨hm, h⟩
    refine Concludes.bind_of_run (fun _ => rfl) (Concludes.bind hdestroy.steps ?_)
    rintro g2 _ - ⟨hm, hg2⟩
    have hexits : Exits ctx g g2 (.ret (some (.int .i32 0))) := by
      rw [hg2, hg1]
      exact ⟨fun _ => ⟨hexit.1, rfl, rfl⟩, fun h => by simp [hlib] at h⟩
    refine Concludes.sound fun hg2 => concludes_ret (hm.reserved.trans hclosed) ?_ ?_
      (fun _ => hm.label.trans hlabel) hexits
    · simpa using (hasType_int g2 rfl 0).1
    · simp [Instr.expected?, hg2.ret, resultType, hm.mode, htop1, hlib, Value.int]

theorem ready_entry {s : State} (hloops : s.loopEnds = []) : (entry ctx s).Ready ctx where
  loops := fun l hl => by
    have hl : l ∈ s.loopEnds := hl
    simp [hloops] at hl
  exit := fun ht => by simp [entry, ht.2]

theorem Concludes.mono {m : Lower Unit} {Q Q' : Stage → Instr → Prop}
    (h : Concludes ctx P start g m Q) (k : ∀ g' t, Q g' t → Q' g' t) :
    Concludes ctx P start g m Q' := by
  intro hfresh horigin hsteps
  refine ⟨fun a s hrun => ?_, (h hfresh horigin hsteps).2⟩
  obtain ⟨g', t, hdone, hs, hQ⟩ := (h hfresh horigin hsteps).1 hrun
  exact ⟨g', t, hdone, hs, k g' t hQ⟩

theorem concludes_entryFunction {R : Stage → Stage → Prop} {s : State} {statements : List Node}
    (htop : s.scope = .topLevel) (hloops : s.loopEnds = [])
    (hblock : Performs ctx P R (block statements)) :
    Concludes ctx P (entry ctx s) (entry ctx s) (entryFunction statements)
      (Enters ctx P R (entry ctx s)) := by
  unfold entryFunction
  have hinits : Lowers ctx P (entry ctx s) (liftM (callInits ctx.naming)) fun g' _ =>
      Grows (entry ctx s) g' ∧ g'.Sound ctx P ∧
        emit (callInits ctx.naming) ctx (entry ctx s).state = .ok ((), g'.state) :=
    Lowers.mono (emits_callInits htop).lifted.ran fun _ _ hm h => ⟨hm, h.2.2.1, h.1⟩
  refine Concludes.bind_of_run (fun _ => rfl) (Concludes.bind hinits.steps ?_)
  rintro g1 _ hs1 ⟨hm1, hg1, hrun1⟩
  have hready1 := (ready_entry hloops).keeps hm1.keeps
  refine Concludes.bind (hblock g1 hready1) ?_
  rintro g2 _ hs2 ⟨hk2, hR⟩
  have hk := hm1.keeps.keeps hk2
  refine (concludes_finishEntry (hk.mode.trans htop) (fun l => ?_) ((ready_entry hloops).keeps hk)
    (hk.loopEnds.trans hloops)).mono fun g' t h => ⟨g1, g2, hrun1, hg1, hs1.trans hs2, hR, h⟩
  exact (hk.reserved l).trans (by simp [entry])

/-! ## Functions -/

theorem hasType_param {s : State} {r : Routine} {word : Value} (h : Persists (routine s r) g)
    (hword : word ∈ (routine s r).func.paramValues) : g.HasType word .i64 := by
  obtain ⟨⟨k, ty⟩, hk, rfl⟩ := mem_map.mp hword
  have hty : ty = .i64 := by
    have hmem : ty ∈ (routine s r).func.signature.params := mem_map.mpr ⟨_, hk, rfl⟩
    simp only [routine, Stage.func, State.enter, Builder.ofFunc, Func.signature_skeleton] at hmem
    exact eq_of_mem_map_const hmem
  refine ⟨⟨fun r' hr' => ?_, trivial⟩, hty⟩
  obtain rfl : k = r' := by simpa [Value.reg] using hr'
  refine mem_scope.mpr (.inl (mem_frame.mpr (.inl ?_)))
  rw [h.params]
  exact hk

theorem runs_bindParams {params : List (String × Value)} :
    ∀ {g : Stage}, g.state.scope = .function → g.Ready ctx →
      (∀ p ∈ params, p.1 ∈ ctx.observed → P.Costs) →
      (∀ p ∈ params, ∀ g', Persists g g' → g'.HasType p.2 .i64) →
      Runs ctx P g (bindParams params) fun g' _ => Keeps g g' := by
  induction params with
  | nil => exact fun _ _ _ _ => Leads.pure (Keeps.refl _)
  | cons p params ih =>
    intro g hscope hready hcosts h
    obtain ⟨hfirst, hcosts⟩ := forall_mem_cons.mp hcosts
    have hhas := h p (by simp) g (Persists.refl g)
    have hword : g.Holds P (.packed p.2) := ⟨hhas.1, hhas.2, nofun⟩
    refine Leads.bind (runs_create (by simp [hscope]) hfirst hready hword) fun g1 _ hs1 h1 => ?_
    have hrest : ∀ q ∈ params, ∀ g', Persists g1 g' → g'.HasType q.2 .i64 := fun q hq g' hp =>
      h q (by simp [hq]) g' ((Steps.persists hs1).trans hp)
    exact Leads.mono (ih (h1.mode.trans hscope) (hready.keeps h1) hcosts hrest)
      fun _ _ _ h => h1.keeps h

theorem ready_routine {s : State} {r : Routine} (hloops : s.loopEnds = []) :
    (routine s r).Ready ctx where
  loops := fun l hl => by
    have hl : l ∈ s.loopEnds := hl
    simp [hloops] at hl
  exit := fun ht => by simp [routine, State.enter, Tracks] at ht

/-- The body of a function completes it. It may rely on how it is reached, and what `R` says of it
holds of the stages that it leads from and to. -/
theorem concludes_bodyFrom {R : Stage → Stage → Prop} {s : State} {r : Routine}
    (hs : (routine s r).Sound ctx P) (hcosts : ∀ name ∈ r.params, name ∈ ctx.observed → P.Costs)
    (hblock : ∀ g1, Steps ctx P (routine s r) g1 →
      bindParams (r.params.zip (routine s r).func.paramValues) ctx (routine s r).state =
        .ok ((), g1.state) → g1.Ready ctx →
      Runs ctx P g1 (block r.body) fun g' _ => Keeps g1 g' ∧ R g1 g')
    (hloops : s.loopEnds = []) :
    (∀ s', functionBody r ctx s = .ok ((), s') →
      ∃ g t, Completes ctx P (routine s r) g t ∧ s' = g.finish t ∧ ∃ g₁, R g₁ g) ∧
    ∀ e, functionBody r ctx s = .error e →
      ∃ g, Steps ctx P (routine s r) g ∧ Fails P g.state e := by
  have hready : (routine s r).Ready ctx := ready_routine hloops
  have hbody : Concludes ctx P (routine s r) (routine s r) (do
      bindParams (r.params.zip (routine s r).func.paramValues)
      block r.body
      unless ← isTerminated do Emit.ret (some (.word 0))
      finishFunction) fun g _ => ∃ g₁, R g₁ g := by
    refine Concludes.bind (runs_bindParams rfl hready
      (fun p hp => hcosts p.1 (of_mem_zip hp).1) fun p hp g' hg' => ?_).ran
      fun g1 _ hs1 h1 => ?_
    · exact hasType_param hg' (of_mem_zip hp).2
    obtain ⟨hparams, -, -, h1⟩ := h1
    refine Concludes.bind (hblock g1 hs1 hparams (hready.keeps h1)) fun g2 _ _ hk2 => ?_
    have hk := h1.keeps hk2.1
    have hmode : g2.state.scope = .function := hk.mode
    have hclosed : g2.reserved = [] :=
      eq_nil_iff_forall_not_mem.mpr fun l hl => by simpa [routine] using (hk.reserved l).mp hl
    have hlast : Tracks ctx g2.state → g2.label = exitLabel := fun ht => by
      simp [Tracks, hmode] at ht
    refine Concludes.isTerminated_bind ?_
    refine Concludes.sound fun hg2 => concludes_ret hclosed ?_ ?_ hlast ⟨g1, hk2.2⟩
    · have hword : g2.Has (.word 0) := (hasType_int g2 rfl 0).1
      simpa using hword
    · simp [Instr.expected?, hg2.ret, resultType, hmode, Value.word, Value.int]
  obtain ⟨hok, herror⟩ := hbody (fresh_routine s r) hs .refl
  exact ⟨fun s' hrun => hok hrun, fun e hrun => herror hrun⟩

theorem Completes.sound_routine {t : Instr} (h : Completes ctx P start g t) (r : Routine) :
    (routine (g.finish t) r).Sound ctx P := by
  refine Stage.sound_routine h.sound t (eq_nil_iff_forall_not_mem.mpr fun l hl => ?_)
  have hmem := h.sound.loopEnds l hl
  simp [h.settled] at hmem

/-! ## The unit -/

theorem declare_foldl {α : Type} (f : α → Signature) (xs : List α) (a : Assembly) :
    (xs.foldl (fun a x => a.declare (f x)) a).functions = a.functions ∧
      (xs.foldl (fun a x => a.declare (f x)) a).globals = a.globals := by
  induction xs generalizing a with
  | nil => exact ⟨rfl, rfl⟩
  | cons x xs ih =>
    have hone : (a.declare (f x)).functions = a.functions ∧
        (a.declare (f x)).globals = a.globals := by
      unfold Assembly.declare
      split <;> exact ⟨rfl, rfl⟩
    exact ⟨(ih _).1.trans hone.1, (ih _).2.trans hone.2⟩

theorem sameCode_start (target : Target) (naming : Naming) (statements : List Node) :
    SameCode ⟨target, naming, [], []⟩ .any
      { builder := .ofFunc (entrySkeleton naming), assembly := emptyAssembly target naming }
      (State.start target naming statements) :=
  sameCode_declareAll (fun _ _ => trivial) (fun _ => Lexicon.of_thrift)
    (fun _ _ _ => Lexicon.of_thrift) _

theorem start_assembly (target : Target) (naming : Naming) (statements : List Node) :
    (State.start target naming statements).assembly.functions = [] ∧
      (State.start target naming statements).assembly.globals = [] := by
  rw [(sameCode_start target naming statements).assembly]
  have hinits := declare_foldl (fun module => ⟨initSymbol module, .void, []⟩) naming.initialized
  have hcatalog := declare_foldl (fun e : Catalog.Entry => e.signature target) Catalog.catalog
  exact ⟨(hinits _).1.trans (hcatalog _).1, (hinits _).2.trans (hcatalog _).2⟩

/-- What is settled for a unit. -/
def contextOf (target : Target) (naming : Naming) (observed : List String)
    (statements : List Node) : Context :=
  { target, naming, observed
    shared := sharedNames (State.start target naming statements).functions }

/-- When the entry function is complete, it is the only function. -/
theorem Completes.functions_finish {target : Target} {naming : Naming} {statements : List Node}
    {t : Instr} (h : Completes ctx P (entry ctx (State.start target naming statements)) g t) :
    (g.finish t).assembly.functions = [g.complete t] ∧
      (g.complete t).name = naming.entrySymbol := by
  have hp := Steps.persists h.steps
  have hnone : g.state.assembly.functions = [] :=
    hp.functions.trans (start_assembly target naming statements).1
  have hbuilder := (sameCode_start target naming statements).builder
  refine ⟨?_, hp.name.trans (congrArg (fun b : Builder => b.func.name) hbuilder)⟩
  show g.state.assembly.functions ++ [g.complete t] = _
  rw [hnone]
  rfl

end

end Stage

end ScriptCompiler.Lowering
