import ScriptCompiler.Proofs.Access.Stmt
import ScriptCompiler.Proofs.Stage.Bodies

/-!
# Every function of a unit keeps to an access

The entry function of a unit, and every function whose text keeps some rules, is code that keeps to an
access: one that has the variables of the function, each with a slot of its own, that reaches the
variables at top level, and that lets code do no more than the rules (`entryFunction_spec`,
`functionBody_spec`). While the entry function is lowered the functions of the unit are noted in order,
and the variables at top level get their slots; both stay as they are while the functions are lowered
(`Pending.entered`).
-/

namespace ScriptCompiler.Lowering

open Ir
open Numeric (assigned assignedAll)

/-- The rules that forbid nothing. -/
def Rules.unrestricted : Rules where
  mayRead _ _ := true
  mayShare _ _ _ := true
  mayRepeat := true

/-- The rules that forbid nothing but two slots for one name. -/
def Rules.single : Rules := { Rules.unrestricted with mayRepeat := false }

/-- Rules that let code read and share all names. -/
structure Rules.Permits (D : Rules) : Prop where
  reads : ∀ bound name, D.mayRead bound name = true
  shares : ∀ bound target name, D.mayShare bound target name = true

mutual

/-- Every text keeps such rules. -/
theorem Rules.Permits.keeps {D : Rules} (h : D.Permits) :
    (node : Node) → ∀ bound, D.keeps bound node = true
  | .assignment name value, bound => by
    cases hbare : value.bare? <;> simp [Rules.keeps, h.reads, h.shares, hbare]
  | .conditional condition thenBlock elseBlock, bound => by
    rw [Rules.keeps, h.keepsAll, h.keepsAll]
    simp [h.reads]
  | .loop condition body, bound => by
    rw [Rules.keeps, h.keepsAll]
    simp [h.reads]
  | .functionDef .., bound => rfl
  | .structDef .., bound | .indexedAssignment .., bound | .ret _, bound | .breakLoop, bound
  | .importModule _, bound | .literal _, bound | .identifier _, bound | .binary .., bound
  | .unary .., bound | .listLiteral _, bound | .index .., bound | .memberAccess .., bound
  | .structLiteral .., bound | .interrogative .., bound | .relation .., bound => by
    simp [Rules.keeps, h.reads]

theorem Rules.Permits.keepsAll {D : Rules} (h : D.Permits) :
    (nodes : List Node) → ∀ bound, D.keepsAll bound nodes = true
  | [], _ => rfl
  | node :: rest, bound => by
    rw [Rules.keepsAll, h.keeps, h.keepsAll]
    rfl

end

theorem permits_unrestricted : Rules.unrestricted.Permits := ⟨fun _ _ => rfl, fun _ _ _ => rfl⟩

theorem permits_single : Rules.single.Permits := ⟨fun _ _ => rfl, fun _ _ _ => rfl⟩

/-- The functions that a unit defines at top level, outside of branches and loops. -/
def topDefinitions (naming : Naming) (statements : List Node) : List Routine :=
  statements.flatMap fun
    | .functionDef name params body => definitions naming (.functionDef name params body)
    | _ => []

/-- The functions that a unit defines, in the order in which they are noted: those that stand in
branches and loops come last. -/
def unitDefinitions (naming : Naming) (statements : List Node) : List Routine :=
  topDefinitions naming statements ++ definitionsAll naming statements

namespace Access

/-- What is known of the variables at top level when a function begins. -/
def Outside (naming : Naming) (globals : Table Binding) : Prop :=
  ∀ name b, globals.lookup name = some b → b.storage.Holds b.kind ∧
    (b.isModuleLevel = true → b.slot = .global (naming.globalSymbol name))

/-- A function keeps to an access, in which every variable has a slot of its own. -/
structure Keeps (A : Access) (naming : Naming) (f : Func) : Prop where
  code : A.code = f.instrs
  once : DefinedOnce f.instrs
  first : ∀ block, f.blocks.head? = some block → ∃ prepared, A.Opens prepared block
  rest : ∀ block ∈ f.blocks.tail, A.Follows [] block.instrs
  slots : ∀ name storage slot, A.own name storage slot →
    (∃ r, slot = .reg r .ptr ∧ .alloca r storage.slotType ∈ f.instrs) ∨
      A.scope = .topLevel ∧ slot = .global (naming.globalSymbol name)
  apart : ∀ name storage name' storage' slot, A.own name storage slot →
    A.own name' storage' slot → name = name' ∧ storage = storage'
  outer : ∀ name b, A.outer name b →
    A.scope = .function ∧ b.slot = .global (naming.globalSymbol name)

/-- An access lets code do no more than the rules, in a function with the variables `names`. -/
structure Within (A : Access) (D : Rules) (names : List String) : Prop where
  names : ∀ name storage slot, A.own name storage slot → name ∈ names
  single : D.mayRepeat = false → ∀ name storage storage' slot slot', A.own name storage slot →
    A.own name storage' slot' → slot = slot'
  free : ∀ name, A.free name → ∃ bound, D.mayRead bound name = true ∧ name ∉ bound
  lends : ∀ target slot, A.lends target slot → ∃ bound name, D.mayShare bound target name = true ∧
    (name ∈ bound → ∃ storage, A.own name storage slot) ∧
    (name ∉ bound → ∃ b, A.outer name b ∧ b.slot = slot)

/-- The access has the variables of the state and no others. -/
structure Fits (A : Access) (ctx : Context) (D : Rules) (s : State) : Prop
    extends A.Suits ctx D s where
  confines : A.confines
  bound : ∀ name storage slot, A.own name storage slot → ∃ b, s.own.lookup name = some b
  reaches : ∀ name b, A.outer name b → s.globals.lookup name = some b ∧ b.isModuleLevel = true

/-- The access of code that makes variables, reaches some at top level, and keeps rules. -/
def ofRules (D : Rules) (scope : Scope) (made : List (String × Binding)) (globals : Table Binding)
    (code : List Instr) : Access where
  scope := scope
  own name storage slot := ∃ b, (name, b) ∈ made ∧ b.storage = storage ∧ b.slot = slot
  outer name b := scope = .function ∧ globals.lookup name = some b ∧ b.isModuleLevel = true
  free name := ∃ bound, D.mayRead bound name = true ∧ name ∉ bound
  external symbol := (∃ bound, D.mayRead bound symbol = true ∧ symbol ∉ bound) ∨
    ∃ module member, symbol = memberSymbol module member
  publishes _ := True
  lends target slot := ∃ bound name, D.mayShare bound target name = true ∧
    (name ∈ bound → ∃ storage b, (name, b) ∈ made ∧ b.storage = storage ∧ b.slot = slot) ∧
    (name ∉ bound → ∃ b, (scope = .function ∧ globals.lookup name = some b ∧
      b.isModuleLevel = true) ∧ b.slot = slot)
  notes := True
  confines := True
  code := code

section

variable {ctx : Context} {D : Rules} {noted : List Routine} {s s' : State}
  {made : List (String × Binding)}

/-- Every instruction of a function that keeps to an access stands at its head or is allowed. -/
theorem Keeps.prepares_or_allows {A : Access} {naming : Naming} {f : Func} (hA : A.Keeps naming f)
    {i : Instr} (hi : i ∈ f.instrs) : A.Prepares i ∨ ∃ above, A.Allows above i := by
  obtain ⟨block, hblock, hi⟩ := List.mem_flatMap.mp hi
  cases hblocks : f.blocks with
  | nil => simp [hblocks] at hblock
  | cons first rest =>
    rw [hblocks] at hblock
    rcases List.mem_cons.mp hblock with rfl | hblock
    · obtain ⟨-, head, code, hcode, -, hprepares, hfollows⟩ := hA.first block (by rw [hblocks]; rfl)
      rw [hcode, List.mem_append] at hi
      exact hi.imp (hprepares i) hfollows.mem
    · exact .inr ((hA.rest block (by rw [hblocks]; exact hblock)).mem hi)

theorem slotType_ne_record (storage : StorageClass) : storage.slotType ≠ .named recordTypeName := by
  cases storage <;> decide

theorem Keeps.notMem_of_topLevel {A : Access} {naming : Naming} {f : Func}
    (hA : A.Keeps naming f) (htop : A.scope = .topLevel) (r : Reg) :
    .alloca r (.named recordTypeName) ∉ f.instrs := by
  intro hi
  rcases hA.prepares_or_allows hi with hprepares | ⟨above, hallows⟩
  · cases hprepares with
    | alloca dst reserves =>
      rcases reserves with ⟨storage, hty⟩ | ⟨hscope, -⟩
      · exact slotType_ne_record storage hty.symm
      · simp [htop] at hscope
  · cases hallows with
    | compute h => simp [Instr.isComputation] at h
    | terminate h => simp [Instr.isTerminator] at h

theorem eq_of_apart {α : Type} {key : String × Binding → α}
    (h : made.Pairwise fun v w => key v ≠ key w) {v w : String × Binding} (hv : v ∈ made)
    (hw : w ∈ made) (heq : key v = key w) : v = w := by
  induction h with
  | nil => simp at hv
  | cons hfirst _ ih =>
    rcases List.mem_cons.mp hv with hv | hv <;> rcases List.mem_cons.mp hw with hw | hw
    · exact hv.trans hw.symm
    · exact absurd heq (hv ▸ hfirst w hw)
    · exact absurd heq.symm (hw ▸ hfirst v hv)
    · exact ih hv hw

theorem Makes.slot (hmakes : Makes ctx noted s s' made) {name : String} {b : Binding}
    (hmem : (name, b) ∈ made) : (∃ r, b.slot = .reg r .ptr) ∨
      s.scope = .topLevel ∧ b.slot = .global (ctx.naming.globalSymbol name) := by
  rcases hmakes.new _ hmem with ⟨r, hslot, -⟩ | ⟨hscope, hslot, -⟩
  · exact .inl ⟨r, hslot⟩
  · exact .inr ⟨hscope, hslot⟩

theorem cell_ofRules (hmakes : Makes ctx noted s s' made) (houtside : Outside ctx.naming s.globals)
    {code : List Instr} {storage storage' : StorageClass} {slot : Value}
    (h : (ofRules D s.scope made s.globals code).Cell storage slot)
    (h' : (ofRules D s.scope made s.globals code).Cell storage' slot) : storage = storage' := by
  -- A variable of a function is in the frame, and one at top level is not.
  have hne : ∀ {name name' storage b}, (ofRules D s.scope made s.globals code).own name storage
      b.slot → (ofRules D s.scope made s.globals code).outer name' b → False := by
    rintro name name' storage b ⟨b', hmem, -, hslot⟩ ⟨hscope, hb, hmodule⟩
    rw [(houtside name' b hb).2 hmodule] at hslot
    rcases hmakes.slot hmem with ⟨r, hreg⟩ | ⟨htop, -⟩
    · simp [hreg, Value.reg, Value.global] at hslot
    · simp [hscope] at htop
  cases h with
  | own h =>
    generalize hslot : slot = slot' at h'
    cases h' with
    | own h' =>
      obtain ⟨b, hmem, rfl, rfl⟩ := h
      obtain ⟨b', hmem', rfl, rfl⟩ := h'
      rw [(Prod.mk.inj (eq_of_apart hmakes.apart hmem hmem' hslot)).2]
    | outer h' => exact (hne (hslot ▸ h) h').elim
  | @outer name b h =>
    generalize hslot : b.slot = slot' at h'
    cases h' with
    | own h' => exact (hne (hslot ▸ h') h).elim
    | outer h' =>
      obtain ⟨-, hb, hmodule⟩ := h
      obtain ⟨-, hb', hmodule'⟩ := h'
      rw [(houtside _ _ hb).2 hmodule, (houtside _ _ hb').2 hmodule'] at hslot
      have hname := globalSymbol_injective ctx.naming (by simpa [Value.global] using hslot)
      rw [hname, hb'] at hb
      rw [Option.some.inj hb]

/-- The code of a function from its beginning, where there are no variables yet, keeps to an
access, with its stack slots at its head. -/
theorem exists_obeys {m : Lower Unit} {names : List String}
    (hm : PerformsAt ctx s.scope D noted (fun _ => True) [] names m s)
    (hrun : m ctx s = .ok ((), s')) (hready : Ready s.scope [] s)
    (hbegin : ∀ A : Access, DefinedOnce A.code → A.Obeys s.builder)
    (houtside : Outside ctx.naming s.globals) (honce : DefinedOnce s'.builder.func.instrs) :
    ∃ A : Access, A.Obeys s'.builder ∧ A.scope = s.scope ∧ A.Keeps ctx.naming s'.builder.func ∧
      A.Within D names ∧ A.Fits ctx D s' := by
  obtain ⟨made, hmakes, hready', hsingly, henlarge⟩ := hm s' hrun hready
  have hempty : ∀ name, s.own.lookup name = none := fun name => hready.none_of_notMem (by simp)
  have hsuits : (ofRules D s.scope made s.globals s'.builder.func.instrs).Suits ctx D s := by
    refine ⟨⟨rfl, ?_, fun _ _ _ _ => cell_ofRules hmakes houtside, fun _ => trivial⟩,
      fun name b hb => by simp [hempty] at hb, fun hscope name b hb hmodule => ⟨hscope, hb, hmodule⟩,
      fun bound name hmay hname => ⟨⟨bound, hmay, hname⟩, .inl ⟨bound, hmay, hname⟩⟩,
      fun _ module _ member => .inr ⟨module, member, rfl⟩, fun _ => trivial,
      fun bound target name slot hmay hown houter => ⟨bound, name, hmay, hown, houter⟩⟩
    rintro name storage symbol ⟨b, hmem, -, hslot⟩
    rcases hmakes.slot hmem with ⟨r, hreg⟩ | ⟨-, hglobal⟩
    · simp [hreg, Value.reg, Value.global] at hslot
    · simpa [hglobal, Value.global, eq_comm] using hslot
  have hmade : (ofRules D s.scope made s.globals s'.builder.func.instrs).Has made :=
    fun v hv => ⟨v.2, hv, rfl, rfl⟩
  have hstart := hbegin (ofRules D s.scope made s.globals s'.builder.func.instrs) honce
  obtain ⟨henlarges, hreserves⟩ :=
    henlarge _ hsuits trivial hmade (List.Subset.refl _) hstart.toHosts
  have hobeys := hstart.enlarges henlarges
  refine ⟨_, hobeys, rfl, ⟨rfl, honce, fun block hblock => ⟨_, hobeys.first block hblock⟩,
    hobeys.rest, ?_, ?_, ?_⟩, ⟨?_, ?_, fun _ h => h, fun _ _ h => h⟩, ⟨hsuits.after hmakes hmade, trivial, ?_, ?_⟩⟩
  · rintro name storage slot ⟨b, hmem, rfl, rfl⟩
    rcases hmakes.slot hmem with ⟨r, hreg⟩ | hglobal
    · exact .inl ⟨r, hreg, hreserves _ hmem r hreg⟩
    · exact .inr hglobal
  · rintro name storage name' storage' slot ⟨b, hmem, rfl, rfl⟩ ⟨b', hmem', rfl, hslot⟩
    obtain ⟨rfl, rfl⟩ := Prod.mk.inj (eq_of_apart hmakes.apart hmem hmem' hslot.symm)
    exact ⟨rfl, rfl⟩
  · rintro name b ⟨hscope, hb, hmodule⟩
    exact ⟨hscope, (houtside name b hb).2 hmodule⟩
  · rintro name storage slot ⟨b, hmem, -⟩
    exact hmakes.mem_bound hready' hmem
  · rintro hD name storage storage' slot slot' ⟨b, hmem, -, rfl⟩ ⟨b', hmem', -, rfl⟩
    obtain ⟨-, rfl⟩ := Prod.mk.inj (eq_of_apart (hsingly hD).2 hmem hmem' rfl)
    rfl
  · rintro name storage slot ⟨b, hmem, -⟩
    exact hmakes.bound _ hmem
  · rintro name b ⟨hscope, hb, hmodule⟩
    exact ⟨by rw [hmakes.globals hscope]; exact hb, hmodule⟩

theorem exists_keeps {m : Lower Unit} {names : List String}
    (hm : PerformsAt ctx s.scope D noted (fun _ => True) [] names m s)
    (hrun : m ctx s = .ok ((), s')) (hready : Ready s.scope [] s)
    (hbegin : ∀ A : Access, DefinedOnce A.code → A.Obeys s.builder)
    (houtside : Outside ctx.naming s.globals) (honce : DefinedOnce s'.builder.func.instrs) :
    ∃ A : Access, A.scope = s.scope ∧ A.Keeps ctx.naming s'.builder.func ∧ A.Within D names ∧
      A.Fits ctx D s' := by
  obtain ⟨A, -, hA⟩ := exists_obeys hm hrun hready hbegin houtside honce
  exact ⟨A, hA⟩

theorem obeys_skeleton {A : Access} {name : String} {ret : Ty} {params : List Ty}
    (h : DefinedOnce A.code) : A.Obeys (.ofFunc (.skeleton name ret params)) where
  once := h
  insert := fun block hblock => by simp [Builder.ofFunc]
  first := by
    intro block hblock
    obtain rfl : ({ label := "entry" } : Block) = block := Option.some.inj hblock
    exact ⟨[], [], rfl, rfl, by simp, trivial⟩
  rest := fun _ hblock => by simp [Builder.ofFunc, Func.skeleton] at hblock
  current := Nat.zero_lt_one
  casts := by simp [Builder.ofFunc]

/-! ## The entry function -/

theorem notMem_recordFunctions {destroy : String} (h : destroy ∈ Catalog.releasing) :
    destroy ∉ Catalog.recordFunctions := by
  revert destroy
  decide

end

section

variable {ctx : Context} {D : Rules} {P : Access → Prop} {T : State} {F : Error → Prop}

theorem writes_callInits (naming : Naming) : Writes P (callInits naming) fun _ _ => True := by
  unfold callInits
  induction naming.initialized with
  | nil => exact Writes.pure fun _ _ => trivial
  | cons module rest ih =>
    refine (writes_callVoid fun _ _ _ => .call _ _ (.inr rfl) (by simp)).bind fun _ => ?_
    exact ih.mono (fun _ hA => hA.1) fun _ _ _ _ => trivial

theorem writes_destroyAll {cleanup : List Cleanup}
    (hP : ∀ A, P A → A.scope = .topLevel ∧ A.notes)
    (h : ∀ e ∈ cleanup, e.destroy ∈ Catalog.releasing) :
    Writes P (destroyAll cleanup) fun _ _ => True := by
  unfold destroyAll
  induction cleanup with
  | nil => exact Writes.pure fun _ _ => trivial
  | cons e rest ih =>
    refine Writes.bind (Q := fun _ _ => True) ?_ fun _ => ?_
    · refine (writes_load fun A dst hA _ => .loadTop (hP A hA).1 (hP A hA).2 dst _).bind
        fun address => ?_
      refine writes_callVoid fun A hA _ => .call _ _ (.inl ?_) fun _ _ =>
        not_confined_of_topLevel (hP A hA.1).1
      exact notMem_recordFunctions (h e List.mem_cons_self)
    · exact (ih fun e' he' => h e' (List.mem_cons_of_mem _ he')).mono (fun _ hA => hA.1)
        fun _ _ _ _ => trivial

theorem computes_finishFunction : Computes ctx T F [] P finishFunction fun _ _ => True :=
  Computes.modify fun s => ⟨rfl, { Adds.refl s with }, rfl, rfl⟩

/-- The last block of a function returns, unless control has left already. -/
theorem computes_return {value : Option Value} (h : ∀ v ∈ value, v.reg? = none) :
    Computes ctx T F [] P (do
      unless ← isTerminated do Emit.ret value
      finishFunction) fun _ _ => True := by
  unfold isTerminated
  rw [bind_assoc]
  refine Computes.get_bind fun s _ => ?_
  rw [pure_bind]
  dsimp only
  split
  case isTrue => exact computes_finishFunction
  case isFalse =>
    refine (writes_terminate rfl fun A _ v hv => ?_).lifted.seq fun _ => computes_finishFunction
    exact not_confined_of_reg? (h v (by simpa [Instr.operands] using hv))

theorem finishEntry_quiet {s s' : State} (hcleanup : ∀ e ∈ s.cleanup, e.destroy ∈ Catalog.releasing)
    (htop : s.scope = .topLevel) (hrun : finishEntry ctx s = .ok ((), s')) :
    Quiet ctx s s' ∧ ∀ A : Access, s'.builder.func.instrs ⊆ A.code → A.Serves ctx s →
      A.Hosts s.builder → A.Enlarges s.builder s'.builder := by
  unfold finishEntry at hrun
  rw [run_read] at hrun
  dsimp only at hrun
  split at hrun
  case isTrue =>
    have hreturn : Computes ctx s AnyError [] (fun _ => True) (do
        unless ← isTerminated do Emit.ret none
        finishFunction) fun _ _ => True := computes_return (by simp)
    obtain ⟨hquiet, henlarge⟩ := hreturn.code (SameTables.refl s) hrun
    exact ⟨hquiet, fun A hcode _ hhosts => (henlarge A hcode trivial hhosts).1⟩
  case isFalse hlib =>
    -- What is freed in the last block is known when its label has been placed.
    rw [← bind_assoc] at hrun
    obtain ⟨_, s₁, hjump, hrest⟩ := run_bind hrun
    have hopen : Computes ctx s AnyError [] (fun _ => True)
        (do fallThrough exitLabel; openBlock exitLabel) fun _ _ => True := computes_goTo
    obtain ⟨hquiet₁, henlarge₁⟩ := hopen.code (SameTables.refl s) hjump
    rw [run_get] at hrest
    have hcleanup₁ : ∀ e ∈ s₁.cleanup, e.destroy ∈ Catalog.releasing := fun e he =>
      (hquiet₁.cleanup e he).elim (hcleanup e) id
    have hdestroy : Computes ctx s₁ AnyError [] (fun A => A.scope = .topLevel ∧ A.notes) (do
        destroyAll s₁.cleanup
        Emit.ret (some (.int .i32 0))
        finishFunction) fun _ _ => True := by
      refine (writes_destroyAll (fun _ h => h) hcleanup₁).lifted.seq fun _ => ?_
      refine (writes_terminate rfl fun A hA _ _ => ?_).lifted.seq fun _ => computes_finishFunction
      exact not_confined_of_topLevel hA.1
    obtain ⟨hquiet₂, henlarge₂⟩ := hdestroy.code (SameTables.refl s₁) hrest
    refine ⟨hquiet₁.trans hquiet₂, fun A hcode hserves hhosts => ?_⟩
    have hjumps := (henlarge₁ A (List.Subset.trans hquiet₂.builder.code hcode) trivial hhosts).1
    exact hjumps.trans (henlarge₂ A hcode ⟨hserves.scope.trans htop,
      hserves.notes ⟨htop, by simpa using hlib⟩⟩ (hjumps.hosts hhosts)).1

/-- The entry function makes the variables that the statements assign, and takes note of the functions
that they define. -/
theorem performsAt_entryFunction {s : State} {statements : List Node} (hcleanup : s.cleanup = [])
    (hD : D.keepsAll [] statements = true) :
    PerformsAt ctx .topLevel D (definitionsAll ctx.naming statements) (fun _ => True) []
      (assignedAll statements) (entryFunction statements) s := by
  intro s' hrun hready
  unfold entryFunction at hrun
  rw [run_read, ← bind_assoc] at hrun
  obtain ⟨⟨⟩, s₂, hblock, hfinish⟩ := run_bind hrun
  have hperforms : Performs ctx .topLevel D (definitionsAll ctx.naming statements) (fun _ => True) []
      (assignedAll statements) (do
        callInits ctx.naming
        block statements) :=
    Performs.after (fun _ _ => (writes_callInits _).lifted) fun _ => performs_block statements [] hD
  obtain ⟨made, hmakes, hready₂, hsingly, henlarge⟩ := hperforms s s₂ hblock hready
  have hreleasing : ∀ e ∈ s₂.cleanup, e.destroy ∈ Catalog.releasing := fun e he =>
    (hmakes.cleanup e he).elim (fun he => by simp [hcleanup] at he) id
  have htop₂ : s₂.scope = .topLevel := hmakes.scope.trans hready.scope
  obtain ⟨hquiet, hend⟩ := finishEntry_quiet hreleasing htop₂ hfinish
  have hmakes' : Makes ctx (definitionsAll ctx.naming statements) s s' made := by
    simpa using hmakes.trans hquiet.makes
  refine ⟨made, hmakes', hready₂.same hquiet.toSameTables, hsingly,
    fun A hsuits _ hmade hcode hhosts => ?_⟩
  obtain ⟨hleft, hreserves⟩ := henlarge A hsuits trivial hmade
    (List.Subset.trans hquiet.builder.code hcode) hhosts
  exact ⟨hleft.trans (hend A hcode (hsuits.after hmakes hmade).toServes (hleft.hosts hhosts)),
    hreserves⟩

/-- What is known of the variables at top level when they have been made. -/
theorem Makes.outside {noted : List Routine} {s s' : State} {made : List (String × Binding)}
    {names : List String} (hmakes : Makes ctx noted s s' made) (hready : Ready .topLevel [] s)
    (hready' : Ready .topLevel names s') : Outside ctx.naming s'.globals := by
  intro name b hb
  refine ⟨hready'.outer name b hb, fun hmodule => ?_⟩
  rw [← own_of_topLevel hready'.scope] at hb
  obtain ⟨b₀, hfrom, -, hslot⟩ := hmakes.own name b hb
  have hmem := hfrom.resolve_left (by simp [hready.none_of_notMem])
  rcases hmakes.slot hmem with ⟨r, hreg⟩ | ⟨-, hglobal⟩
  · have hreg : b.slot = .reg r .ptr := hslot.trans hreg
    simp [Binding.isModuleLevel, hreg, Value.reg?, Value.reg] at hmodule
  · exact hslot.trans hglobal

/-- Which variables at top level may be in the frame when they have been made. -/
theorem Makes.reached {noted : List Routine} {s s' : State} {made : List (String × Binding)}
    {names : List String} (hmakes : Makes ctx noted s s' made) (hready : Ready .topLevel [] s)
    (hready' : Ready .topLevel names s') {name : String} {b : Binding}
    (hb : s'.globals.lookup name = some b) :
    b.isModuleLevel = true ∨ ctx.naming.isLibrary = false ∧ name ∉ ctx.shared := by
  rw [← own_of_topLevel hready'.scope] at hb
  obtain ⟨b₀, hfrom, -, hslot⟩ := hmakes.own name b hb
  have hmem := hfrom.resolve_left (by simp [hready.none_of_notMem])
  rcases hmakes.new _ hmem with ⟨r, -, -, -, hframe⟩ | ⟨-, hglobal, -⟩
  · exact .inr (hframe hready.scope)
  · refine .inl ?_
    rw [Binding.isModuleLevel, hslot.trans hglobal]
    rfl

/-! ## Functions -/

theorem performs_bindParams {params : List (String × Value)} (h : ∀ p ∈ params, p.2.ty = .i64)
    (bound : List String) (hD : D.mayRepeat = false → (bound ++ params.map (·.1)).Nodup) :
    Performs ctx .function D [] P bound (params.map (·.1)) (bindParams params) := by
  induction params generalizing bound with
  | nil => exact Performs.last fun _ _ => Computes.pure fun _ _ => trivial
  | cons p params ih =>
    have hplain : ∀ A : Access, A.IsPlain (.packed p.2) := fun A => isPlain_packed (h p (by simp))
    have hfirst : Performs ctx .function D [] P bound [p.1] (create p.1 (.packed p.2)) :=
      performs_create (fun hscope hmem => ?_) (fun A _ => (hplain A).knows)
        fun A _ ht => absurd ht (hplain A).kind
    · exact fun s => (hfirst s).seq (ih (fun q hq => h q (by simp [hq])) _ (by simpa using hD))
    · have hnodup := hD (hscope.resolve_left (by simp))
      exact (List.nodup_append.mp hnodup).2.2 p.1 hmem p.1 (by simp) rfl

theorem params_enter (s : State) (r : Routine) :
    (∀ v ∈ (s.enter r).builder.func.paramValues, v.ty = .i64) ∧
      (r.params.zip (s.enter r).builder.func.paramValues).map (·.1) = r.params := by
  refine ⟨fun v hv => ?_, List.map_fst_zip ?_⟩
  · obtain ⟨⟨k, ty⟩, hk, rfl⟩ := List.mem_map.mp hv
    have hmem : ty ∈ (s.enter r).builder.func.signature.params := List.mem_map.mpr ⟨_, hk, rfl⟩
    simp only [State.enter, Builder.ofFunc, Func.signature_skeleton] at hmem
    exact List.eq_of_mem_map_const hmem
  · simp [State.enter, Builder.ofFunc, Func.skeleton, Func.paramValues]

/-- A function makes its parameters and the variables that its body assigns. -/
theorem performs_body {s : State} {r : Routine} (hD : D.keepsAll r.params r.body = true)
    (hparams : D.mayRepeat = false → r.params.Nodup) :
    Performs ctx .function D (definitionsAll ctx.naming r.body) (fun _ => True) []
      (r.params ++ assignedAll r.body) (do
        bindParams (r.params.zip (s.enter r).builder.func.paramValues)
        block r.body
        unless ← isTerminated do Emit.ret (some (.word 0))
        finishFunction) := by
  obtain ⟨hvalues, hnames⟩ := params_enter s r
  have hbind : Performs ctx .function D [] (fun _ => True) [] r.params
      (bindParams (r.params.zip (s.enter r).builder.func.paramValues)) := by
    have hfrom : Performs ctx .function D [] (fun _ => True) [] _ _ :=
      performs_bindParams (fun p hp => hvalues p.2 (List.of_mem_zip hp).2) []
        (by rw [hnames]; exact hparams)
    rwa [hnames] at hfrom
  refine fun s => (hbind s).seq (Performs.before (performs_block r.body r.params hD)
    (Performs.last fun _ _ => computes_return ?_))
  simp [Value.reg?, Value.word, Value.int]

theorem ready_enter {s : State} (r : Routine) (houtside : Outside ctx.naming s.globals) :
    Ready .function [] (s.enter r) where
  scope := rfl
  own := fun name b hb => by simp [State.enter, State.own] at hb
  outer := fun name b hb => (houtside name b hb).1
  last := fun name hlast => by simp [State.enter] at hlast
  bound := fun name => by simp [State.enter, State.own]

/-- The body of a function from the state in which it begins. -/
theorem functionBody_run {s s' : State} {r : Routine} (hrun : functionBody r ctx s = .ok ((), s')) :
    (do
      bindParams (r.params.zip (s.enter r).builder.func.paramValues)
      block r.body
      unless ← isTerminated do Emit.ret (some (.word 0))
      finishFunction : Lower Unit) ctx (s.enter r) = .ok ((), s') := by
  unfold functionBody at hrun
  obtain ⟨_, s₀, henter, hrun⟩ := run_bind hrun
  obtain rfl : s.enter r = s₀ := congrArg Prod.snd (Except.ok.inj henter)
  rw [run_get] at hrun
  exact hrun

/-- Lowering a function leaves the functions of the unit and the variables at top level as they
are. -/
theorem functionBody_makes {s s' : State} {r : Routine} (houtside : Outside ctx.naming s.globals)
    (hrun : functionBody r ctx s = .ok ((), s')) :
    ∃ noted made, Makes ctx noted (s.enter r) s' made := by
  obtain ⟨made, hmakes, -⟩ := performs_body (D := .unrestricted) (permits_unrestricted.keepsAll _ _)
    (by simp [Rules.unrestricted]) _ s' (functionBody_run hrun) (ready_enter r houtside)
  exact ⟨_, made, hmakes⟩

theorem functionBody_spec {s s' : State} {r : Routine} (houtside : Outside ctx.naming s.globals)
    (hD : D.keepsAll r.params r.body = true) (hparams : D.mayRepeat = false → r.params.Nodup)
    (honce : DefinedOnce s'.builder.func.instrs) (hrun : functionBody r ctx s = .ok ((), s')) :
    ∃ A : Access, A.scope = .function ∧ A.Keeps ctx.naming s'.builder.func ∧
      A.Within D (r.params ++ assignedAll r.body) ∧ A.Fits ctx D s' :=
  exists_keeps (performs_body hD hparams (s.enter r)) (functionBody_run hrun)
    (ready_enter r houtside) (fun _ => obeys_skeleton) houtside honce

end

end Access

/-! ## The unit -/

section

variable {ctx : Context} {statements : List Node} {todo : List Routine} {r : Routine}
  {s s' : State}

theorem foldl_declare_eq (naming : Naming) (statements : List Node) (s : State) :
    ∃ structs, statements.foldl (declare naming) s =
      { s with functions := noteAll s.functions (topDefinitions naming statements), structs } := by
  induction statements generalizing s with
  | nil => exact ⟨s.structs, rfl⟩
  | cons node rest ih =>
    obtain ⟨structs, heq⟩ := ih (declare naming s node)
    rw [List.foldl_cons, heq]
    cases node with
    | functionDef name params body =>
      refine ⟨structs, ?_⟩
      rw [declare, addRoutine_eq]
      rfl
    | _ => exact ⟨structs, rfl⟩

theorem start_eq (target : Target) (naming : Naming) (statements : List Node) :
    ∃ structs, State.start target naming statements =
      { builder := .ofFunc (entrySkeleton naming)
        assembly := emptyAssembly target naming
        functions := noteAll [] (topDefinitions naming statements)
        structs } :=
  foldl_declare_eq naming statements _

theorem ready_start (target : Target) (naming : Naming) (statements : List Node) :
    Access.Ready .topLevel [] (State.start target naming statements) := by
  obtain ⟨structs, hstart⟩ := start_eq target naming statements
  rw [hstart]
  exact ⟨rfl, by simp [State.own], by simp, by simp, by simp [State.own]⟩

/-- The variables at top level when the entry function is complete, and the functions that are
noted. -/
structure Entered (ctx : Context) (statements : List Node) (s : State) : Prop where
  functions : s.functions = noteAll [] (unitDefinitions ctx.naming statements)
  outside : Access.Outside ctx.naming s.globals
  names : ∀ name b, s.globals.lookup name = some b → name ∈ assignedAll statements
  reached : ∀ name b, s.globals.lookup name = some b →
    b.isModuleLevel = true ∨ ctx.naming.isLibrary = false ∧ name ∉ ctx.shared
  /-- A variable has one global at most. -/
  stored : (∀ name ∈ assignedAll statements, Dotless name) → ∀ name,
    Access.stored ctx.naming s.assembly.globals name ≤ 1

theorem entered_of_entryFunction
    (h : entryFunction statements ctx (State.start ctx.target ctx.naming statements) =
      .ok ((), s)) : Entered ctx statements s := by
  have hready := ready_start ctx.target ctx.naming statements
  obtain ⟨structs, hstart⟩ := start_eq ctx.target ctx.naming statements
  obtain ⟨made, hmakes, hready', -⟩ := Access.performsAt_entryFunction (D := .unrestricted)
    (by rw [hstart]) (permits_unrestricted.keepsAll _ _) s h hready
  have hnames : ∀ name b, s.globals.lookup name = some b → name ∈ assignedAll statements := by
    intro name b hb
    rw [← Access.own_of_topLevel hready'.scope] at hb
    exact (hready'.bound name).mpr ⟨b, hb⟩
  refine ⟨?_, hmakes.outside hready hready', hnames, fun name b hb => hmakes.reached hready hready' hb,
    fun hdot name => ?_⟩
  · rw [hmakes.functions, hstart]
    exact (noteAll_append _ _ _).symm
  · have hnone : Access.stored ctx.naming
        (State.start ctx.target ctx.naming statements).assembly.globals name = 0 := by
      rw [(Stage.start_assembly ctx.target ctx.naming statements).2]
      rfl
    rcases hmakes.stored (fun name b hb => hdot name (hnames name b hb)) name with heq | ⟨heq, -⟩
    all_goals omega

/-- Lowering a function changes nothing of this. -/
theorem Entered.functionBody (h : Entered ctx statements s)
    (hrun : functionBody r ctx s = .ok ((), s')) : Entered ctx statements s' := by
  obtain ⟨noted, made, hmakes⟩ := Access.functionBody_makes h.outside hrun
  have hglobals : s'.globals = s.globals := hmakes.globals rfl
  have hstored := hmakes.stored
  rw [hglobals] at hstored
  refine ⟨(hmakes.settled rfl).trans h.functions, by rw [hglobals]; exact h.outside,
    by rw [hglobals]; exact h.names, by rw [hglobals]; exact h.reached, fun hdot name => ?_⟩
  rcases hstored (fun name b hb => hdot name (h.names name b hb)) name with heq | ⟨-, htop, -⟩
  · rw [heq]
    exact h.stored hdot name
  · simp [State.enter] at htop

theorem Pending.entered (h : Pending ctx statements todo s) : Entered ctx statements s := by
  induction h with
  | entry h => exact entered_of_entryFunction h
  | body _ h ih => exact ih.functionBody h

theorem entryFunction_spec
    (h : entryFunction statements ctx (State.start ctx.target ctx.naming statements) =
      .ok ((), s)) :
    ∃ A : Access, A.scope = .topLevel ∧ A.Keeps ctx.naming s.builder.func ∧
      A.Within .single (assignedAll statements) ∧ A.Fits ctx .single s := by
  have hready := ready_start ctx.target ctx.naming statements
  obtain ⟨structs, hstart⟩ := start_eq ctx.target ctx.naming statements
  have hscope := hready.scope
  have hperforms : Access.PerformsAt ctx .topLevel .single _ _ [] _ (entryFunction statements)
      (State.start ctx.target ctx.naming statements) :=
    Access.performsAt_entryFunction (by rw [hstart]) (permits_single.keepsAll statements [])
  rw [← hscope] at hperforms hready
  obtain ⟨A, hA, hkeeps, hwithin, hfits⟩ := Access.exists_keeps hperforms h hready
    (fun A honce => by rw [hstart]; exact Access.obeys_skeleton honce) (by
      rw [hstart]
      exact fun name b hb => by simp at hb) (entryDone h).once
  exact ⟨A, hA.trans hscope, hkeeps, hwithin, hfits⟩

theorem LowersBody.spec (h : LowersBody ctx statements r s s') {D : Rules}
    (hD : D.keepsAll r.params r.body = true) (hparams : D.mayRepeat = false → r.params.Nodup) :
    ∃ A : Access, A.scope = .function ∧ A.Keeps ctx.naming s'.builder.func ∧
      A.Within D (r.params ++ assignedAll r.body) ∧ A.Fits ctx D s' := by
  obtain ⟨rest, hpending, hrun⟩ := h
  exact Access.functionBody_spec hpending.entered.outside hD hparams
    (bodyDone hpending hrun).once hrun

/-- The functions that are complete are the entry function and the bodies of the first functions of
the unit, which leave the variables at top level alone. -/
theorem Pending.exists_done (h : Pending ctx statements todo s) :
    ∃ (s₁ : State) (done : List (Routine × Func)),
      entryFunction statements ctx (State.start ctx.target ctx.naming statements) = .ok ((), s₁) ∧
      s.globals = s₁.globals ∧ s.assembly.functions = s₁.builder.func :: done.map (·.2) ∧
      noteAll [] (unitDefinitions ctx.naming statements) = done.map (·.1) ++ todo ∧
      ∀ p ∈ done, ∃ t t', LowersBody ctx statements p.1 t t' ∧ p.2 = t'.builder.func ∧
        t'.globals = s₁.globals := by
  induction h with
  | @entry s h =>
    exact ⟨s, [], h, rfl, (entryDone h).functions, (entered_of_entryFunction h).functions.symm,
      by simp⟩
  | @body r rest s s' before h ih =>
    obtain ⟨s₁, done, hentry, hglobals, hfunctions, hroutines, hdone⟩ := ih
    obtain ⟨noted, made, hmakes⟩ := Access.functionBody_makes before.entered.outside h
    have hglobals' : s'.globals = s₁.globals := (hmakes.globals rfl).trans hglobals
    refine ⟨s₁, done ++ [(r, s'.builder.func)], hentry, hglobals', ?_, ?_, fun p hp => ?_⟩
    · rw [(bodyDone before h).functions, hfunctions]
      simp
    · rw [hroutines]
      simp
    · rcases List.mem_append.mp hp with hp | hp
      · exact hdone p hp
      · obtain rfl := List.mem_singleton.mp hp
        exact ⟨s, s', ⟨rest, before, h⟩, rfl, hglobals'⟩

/-- The functions of a unit are the entry function and the bodies of the functions that it
defines. -/
theorem generate_done {target : Target} {naming : Naming} {observed : List String} {u : Generated}
    (hctx : ctx = Stage.contextOf target naming observed statements)
    (hu : generate target naming observed statements = .ok u) :
    ∃ (s : State) (done : List (Routine × Func)),
      entryFunction statements ctx (State.start ctx.target ctx.naming statements) = .ok ((), s) ∧
      u.assembly.functions = s.builder.func :: done.map (·.2) ∧
      done.map (·.1) = noteAll [] (unitDefinitions ctx.naming statements) ∧
      ∀ p ∈ done, ∃ t t', LowersBody ctx statements p.1 t t' ∧ p.2 = t'.builder.func ∧
        t'.globals = s.globals := by
  obtain ⟨s, hpending, rfl⟩ := generate_pending hctx hu
  obtain ⟨s₁, done, hentry, -, hfunctions, hroutines, hdone⟩ := hpending.exists_done
  exact ⟨s₁, done, hentry, hfunctions, by simpa using hroutines.symm, hdone⟩

end

end ScriptCompiler.Lowering
