import ScriptCompiler.Proofs.Access.Recording
import ScriptCompiler.Proofs.Access.Watch

/-!
# Where boxed records are from

A function of the runtime that takes a boxed record is handed one that exists: in the entry function
one that `eigen_create` returned, in another function one that `eigen_init` initialized in the frame,
and in both one that was in a variable at top level when the run began (`Origin`). There is one
exception. Whether an assignment makes a record or updates one is decided by the text, and a run may
come to an assignment that updates without having come to the one that makes. Then what is handed over
was read from a variable to which nothing had been assigned (`ReadUnassigned`).

`generate_passesRecords` says so of every function of a unit and of every run in surroundings that
leave its variables alone, and `updatesNull_assignedInBranches` that the exception occurs.
-/

namespace ScriptCompiler.Lowering

open Ir
open Numeric (assignedAll)

/-- A boxed variable at top level that is in a global. -/
def IsBoxed (globals : Table Binding) (name : String) : Prop :=
  ∃ b, globals.lookup name = some b ∧ b.isModuleLevel = true ∧ b.storage.isTracked = true

/-- Where a record is from in a run that begins in the frame `φ₀`, in code that can reach the boxed
variables `reached` at top level. -/
inductive Origin (naming : Naming) (scope : Scope) (reached : String → Prop) (φ₀ : Frame Past)
    (past : Past) : Datum → Prop where
  /-- Code at top level had it made in this run. -/
  | created {r : Reg} {xs : List Datum} {d : Datum} (top : scope = .topLevel)
      (h : .called (some r) Catalog.boxCreate xs (some d) ∈ past) :
      Origin naming scope reached φ₀ past d
  /-- It is in the frame of a function, which initialized it in this run. -/
  | initialized {r : Reg} {y : Datum} (inside : scope = .function)
      (h : .called none Catalog.boxInit [.address (.slot r), y] none ∈ past) :
      Origin naming scope reached φ₀ past (.address (.slot r))
  /-- It was in a variable at top level when the run began. -/
  | before {name : String} {d : Datum} (reaches : reached name)
      (content : φ₀.memory (.global (naming.globalSymbol name)) = some d) (ne : d ≠ noRecord) :
      Origin naming scope reached φ₀ past d

/-- The place of a boxed variable: a stack slot for an address, or a global. -/
def IsPlace (naming : Naming) (reached : String → Prop) (f : Func) (a : Address) : Prop :=
  (∃ r, a = .slot r ∧ .alloca r .ptr ∈ f.instrs) ∨
    ∃ name, reached name ∧ a = .global (naming.globalSymbol name)

/-- What is in a register was read from a boxed variable to which nothing had been assigned. -/
def ReadUnassigned (naming : Naming) (reached : String → Prop) (f : Func) (past : Past) (r : Reg) :
    Prop :=
  ∃ a d earlier, IsPlace naming reached f a ∧ LoadedLast past r a d earlier ∧ Unset earlier a

/-- A datum was read from a boxed variable to which nothing had been assigned, and stored in another
one as its record. -/
def SharedUnassigned (naming : Naming) (reached : String → Prop) (f : Func) (past : Past)
    (d : Datum) : Prop :=
  ∃ a b r later middle earlier, IsPlace naming reached f a ∧ IsPlace naming reached f b ∧
    past = later ++ .stored b d :: middle ∧ LoadedLast middle r a d earlier ∧ Unset earlier a

/-- Whatever a run that begins in the frame `φ₀` passes as a record is one that exists, or it was read
from a variable without a record. -/
def PassesRecords (naming : Naming) (globals : Table Binding) (scope : Scope) (f : Func)
    (S : Surroundings) (φ₀ : Frame Past) : Prop :=
  ∀ label dst ret callee v args rest φ d,
    Arises S f φ₀ ⟨label, .call dst ret callee (v :: args) :: rest, φ⟩ →
    callee ∈ Catalog.recordFunctions → v.ty = .ptr → φ.eval v = some d →
    (d ≠ noRecord ∧ Origin naming scope (IsBoxed globals) φ₀ φ.world d) ∨
      (∃ r, v = .reg r .ptr ∧ ReadUnassigned naming (IsBoxed globals) f φ.world r) ∨
      SharedUnassigned naming (IsBoxed globals) f φ.world d

/-- At every point of a run there is null in a boxed variable at top level, a record, or what was read
from a variable without a record. -/
def KeepsRecords (naming : Naming) (globals : Table Binding) (scope : Scope) (f : Func)
    (S : Surroundings) (φ₀ : Frame Past) : Prop :=
  ∀ c name d, Arises S f φ₀ c → IsBoxed globals name →
    c.frame.memory (.global (naming.globalSymbol name)) = some d →
    d = noRecord ∨ Origin naming scope (IsBoxed globals) φ₀ c.frame.world d ∨
      SharedUnassigned naming (IsBoxed globals) f c.frame.world d

/-- A run leaves the globals alone, other objects apart. -/
def LeavesGlobals (f : Func) (S : Surroundings) (φ₀ : Frame Past) : Prop :=
  ∀ c symbol, Arises S f φ₀ c → ¬ S.elsewhere symbol →
    c.frame.memory (.global symbol) = φ₀.memory (.global symbol)

section

variable {naming : Naming} {scope : Scope} {reached : String → Prop} {f : Func}
  {S : Surroundings} {φ₀ : Frame Past} {past past' : Past} {d : Datum}

theorem Origin.mono (h : Origin naming scope reached φ₀ past d) (hsub : past ⊆ past') :
    Origin naming scope reached φ₀ past' d := by
  cases h with
  | created top h => exact .created top (hsub h)
  | initialized inside h => exact .initialized inside (hsub h)
  | before reaches content ne => exact .before reaches content ne

theorem SharedUnassigned.mono (h : SharedUnassigned naming reached f past d)
    (hsuffix : past <:+ past') : SharedUnassigned naming reached f past' d := by
  obtain ⟨a, b, r, later, middle, earlier, ha, hb, rfl, hread⟩ := h
  obtain ⟨front, rfl⟩ := hsuffix
  exact ⟨a, b, r, front ++ later, middle, earlier, ha, hb, (List.append_assoc ..).symm, hread⟩

theorem IsPlace.isKept (hprivate : ∀ name, ¬ S.elsewhere (naming.globalSymbol name)) {a : Address}
    (h : IsPlace naming reached f a) : a.IsKept S := by
  rcases h with ⟨r, rfl, -⟩ | ⟨name, -, rfl⟩
  · exact .inl ⟨r, rfl⟩
  · exact .inr ⟨_, rfl, hprivate name⟩

theorem Origin.ne_noRecord (hbegin : φ₀.Begins f) {c : Point} (hc : Arises S f φ₀ c)
    (h : Origin naming scope reached φ₀ c.frame.world d) : d ≠ noRecord := by
  cases h with
  | created top h =>
    obtain ⟨index, rfl⟩ := hc.created_heap hbegin h
    simp
  | initialized inside h => simp
  | before reaches content ne => exact ne

end

namespace Access

/-- The code of a function is settled: every slot has one storage class, and the boxed variables at
top level are those that are reached. -/
structure Settled (A : Access) (naming : Naming) (f : Func) (reached : String → Prop) : Prop where
  keeps : A.Keeps naming f
  cells : ∀ storage storage' slot, A.Cell storage slot → A.Cell storage' slot → storage = storage'
  reaches : ∀ {storage name}, A.Cell storage (.global (naming.globalSymbol name)) →
    storage.isTracked = true → reached name
  top : A.scope = .topLevel → A.Identified

/-- The slot of a boxed variable that is reached, if it is one at top level. -/
def IsWatched (A : Access) (naming : Naming) (reached : String → Prop) (slot : Value) : Prop :=
  (∃ storage, A.Cell storage slot ∧ storage.isTracked = true) ∧
    ∀ name, slot = .global (naming.globalSymbol name) → reached name

section

variable {A : Access} {naming : Naming} {f : Func} {reached : String → Prop}
  {S : Surroundings} {φ₀ : Frame Past} {slot : Value} {a : Address}

theorem Keeps.exists_place (hA : A.Keeps naming f) (h : A.IsWatched naming reached slot) :
    ∃ a, f.Home slot a ∧ IsPlace naming reached f a := by
  obtain ⟨⟨storage, hcell, htracked⟩, hreached⟩ := h
  cases hcell with
  | own hown =>
    rcases hA.slots _ _ _ hown with ⟨r, rfl, hreserved⟩ | ⟨-, rfl⟩
    · rw [slotType_of_isTracked htracked] at hreserved
      exact ⟨_, .slot hreserved, .inl ⟨r, rfl, hreserved⟩⟩
    · exact ⟨_, .global _, .inr ⟨_, hreached _ rfl, rfl⟩⟩
  | outer houter =>
    have hslot := (hA.outer _ _ houter).2
    rw [hslot]
    exact ⟨_, .global _, .inr ⟨_, hreached _ hslot, rfl⟩⟩

theorem Keeps.isPlace (hA : A.Keeps naming f) (h : A.IsWatched naming reached slot)
    (ha : f.Home slot a) : IsPlace naming reached f a := by
  obtain ⟨a', ha', hplace⟩ := hA.exists_place h
  exact ha'.unique ha ▸ hplace

/-- Records are watched over for where they are from. -/
def origins (h : A.Settled naming f reached)
    (hprivate : ∀ name, ¬ S.elsewhere (naming.globalSymbol name)) (hbegin : φ₀.Begins f) :
    Watch A f S φ₀ where
  slots := A.IsWatched naming reached
  good past d := Origin naming A.scope reached φ₀ past d ∨ SharedUnassigned naming reached f past d
  mono hsuffix := Or.imp (·.mono hsuffix.subset) (·.mono hsuffix)
  home hslot := by
    obtain ⟨a, ha, hplace⟩ := h.keeps.exists_place hslot
    exact ⟨a, ha, hplace.isKept hprivate⟩
  boxed hslot hown := by
    obtain ⟨⟨storage, hcell, htracked⟩, -⟩ := hslot
    rwa [h.cells _ _ _ (.own hown) hcell]
  top hslot htop := by
    obtain ⟨⟨storage, hcell, -⟩, -⟩ := hslot
    refine ⟨h.top htop, ?_⟩
    generalize hglobal : Value.global _ = slot at hcell
    cases hcell with
    | own hown => exact ⟨_, _, hown⟩
    | outer houter =>
      have hscope := (h.keeps.outer _ _ houter).1
      simp [htop] at hscope
  lends _ _ hcell htracked _ := ⟨⟨_, hcell, htracked⟩, by
    rintro name rfl
    exact h.reaches hcell htracked⟩
  stack hscope hcalled := .inl (.initialized hscope hcalled)
  heap htop hcalled := .inl (.created htop hcalled)
  missing {name target b past earlier r slot a d} htarget _ hb hslot ha hlast hunset :=
    .inr ⟨a, b, r, [], past, earlier, h.keeps.isPlace hslot ha, h.keeps.isPlace htarget hb, rfl, hlast,
      hunset⟩
  begins {past slot a d} hslot ha hd hne := by
    rcases h.keeps.isPlace hslot ha with ⟨r, rfl, -⟩ | ⟨name, hreached, rfl⟩
    · simp [hbegin.slots] at hd
    · exact .inl (.before hreached hd hne)

theorem Keeps.isRecord (hA : A.Keeps naming f) {dst : Option Reg} {ret : Ty} {callee : String}
    {v : Value} {args : List Value} (hi : .call dst ret callee (v :: args) ∈ f.instrs)
    (hcallee : callee ∈ Catalog.recordFunctions) (hv : v.ty = .ptr) : A.IsRecord v := by
  have hinit : Catalog.boxInit ∉ Catalog.recordFunctions := by decide
  rcases hA.prepares_or_allows hi with hprepares | ⟨above, hallows⟩
  · cases hprepares
  cases hallows with
  | compute h => simp [Instr.isComputation] at h
  | terminate h => simp [Instr.isTerminator] at h
  | fill => exact absurd hcallee hinit
  | update own tracked reads => exact ⟨_, _, .own own, tracked, reads⟩
  | ask _ _ h => exact h
  | words dst callee h => simp [h v (by simp)] at hv
  | call dst ret h => exact absurd hcallee (h.resolve_right (by simp))

section

variable {globals : Table Binding} (h : A.Settled naming f (IsBoxed globals))
  (hboxed : ∀ name, (∃ storage, A.Cell storage (.global (naming.globalSymbol name)) ∧
    storage.isTracked = true) ↔ IsBoxed globals name)
  (hf : f.Linear) (hprivate : ∀ name, ¬ S.elsewhere (naming.globalSymbol name))
  (hbegin : φ₀.Begins f)

include h hboxed hf hprivate hbegin

theorem Settled.passesRecords : PassesRecords naming globals A.scope f S φ₀ := by
  intro label dst ret callee v args rest φ d hc hcallee hv hd
  obtain ⟨storage, slot, hcell, htracked, hreads⟩ := h.keeps.isRecord (Arises.mem hc) hcallee hv
  have hslot : A.IsWatched naming (IsBoxed globals) slot := by
    refine ⟨⟨storage, hcell, htracked⟩, ?_⟩
    rintro name rfl
    exact (hboxed name).mp ⟨storage, hcell, htracked⟩
  have hholds := (origins h hprivate hbegin).holds_of_arises hf h.keeps hbegin hc
  obtain ⟨r, a, earlier, hr, ha, hlast, (horigin | hshared) | hunset⟩ :=
    hholds.reads h.keeps.code (Arises.derived hf hbegin hc) hslot hreads hd
  · exact .inl ⟨horigin.ne_noRecord hbegin hc, horigin⟩
  · exact .inr (.inr hshared)
  · exact .inr (.inl ⟨r, hr, a, d, earlier, h.keeps.isPlace hslot ha, hlast, hunset⟩)

theorem Settled.keepsRecords : KeepsRecords naming globals A.scope f S φ₀ := by
  intro c name d hc hname hd
  have hslot : A.IsWatched naming (IsBoxed globals) (.global (naming.globalSymbol name)) := by
    refine ⟨(hboxed name).mpr hname, fun name' heq => ?_⟩
    have hsymbol : naming.globalSymbol name = naming.globalSymbol name' := by
      simpa [Value.global] using heq
    exact globalSymbol_injective naming hsymbol ▸ hname
  have hkept : (Address.global (naming.globalSymbol name)).IsKept S :=
    .inr ⟨_, rfl, hprivate name⟩
  have hholds := (origins h hprivate hbegin).holds_of_arises hf h.keeps hbegin hc
  rcases Arises.remembers hkept hbegin hc d hd with hlast | ⟨-, hstart⟩
  · -- It was stored in this run.
    exact (hholds.stores hslot (.global _) hlast).symm.imp_left (·.1)
  · by_cases hnull : d = noRecord
    · exact .inl hnull
    · exact .inr (.inl (.before hname hstart hnull))

end

theorem Keeps.place_of_store (hA : A.Keeps naming f) (hscope : A.scope = .function) {φ : Frame Past}
    (hφ : φ.Derived f) {value ptr : Value} (hi : .store value ptr ∈ f.instrs)
    (ha : φ.place ptr = some a) : ∀ symbol, a ≠ .global symbol := by
  have hown : ∀ {name storage}, A.own name storage ptr → ∀ symbol, a ≠ .global symbol := by
    intro name storage hown
    rcases hA.slots _ _ _ hown with ⟨r, rfl, hreserved⟩ | ⟨htop, -⟩
    · rw [(Func.Home.slot hreserved).place hφ ha]
      simp
    · simp [hscope] at htop
  rcases hA.prepares_or_allows hi with hprepares | ⟨above, hallows⟩
  · cases hprepares with
    | null own => exact hown own
  cases hallows with
  | compute h => simp [Instr.isComputation] at h
  | terminate h => simp [Instr.isTerminator] at h
  | storeField field =>
    -- The address of a field is computed.
    obtain ⟨e, he, he'⟩ := Option.bind_eq_some_iff.mp ha
    obtain ⟨index, rfl⟩ := (hφ.field (hA.code ▸ field) he).place he'
    simp
  | storePlain own | storeBox own => exact hown own
  | storeTop value top => simp [hscope] at top

theorem Keeps.leavesGlobals (hA : A.Keeps naming f) (hscope : A.scope = .function) (hf : f.Linear)
    (hbegin : φ₀.Begins f) : LeavesGlobals f S φ₀ := by
  intro c symbol hc hsymbol
  have hkept : (Address.global symbol).IsKept S := .inr ⟨symbol, rfl, hsymbol⟩
  induction hc with
  | refl => rw [Func.frame_start]
  | tail hpath hstep ih =>
    cases hstep with
    | br | condBr => exact ih
    | exec label rest hdoes =>
      refine Eq.trans ?_ ih
      cases hdoes with
      | alloca dst ty => exact Frame.memory_write_of_ne (by simp)
      | load | loadAny | compute => rfl
      | callVoid ret callee data spares => exact spares.memory_eq hkept
      | call dst ret callee data spares => exact spares.memory_eq hkept
      | store datum place =>
        have hplace := hA.place_of_store hscope (Arises.derived hf hbegin hpath) (Arises.mem hpath)
          place symbol
        exact Frame.memory_write_of_ne hplace.symm

end

end Access

section

variable {ctx : Context} {statements : List Node} {s s' : State} {A : Access}

theorem isModuleLevel_of_global {b : Binding} {symbol : String} (h : b.slot = .global symbol) :
    b.isModuleLevel = true := by
  simp [Binding.isModuleLevel, h, Value.reg?, Value.global]

theorem Access.Keeps.eq_of_own {naming : Naming} {f : Func} (hA : A.Keeps naming f)
    {name name' : String} {storage : StorageClass}
    (h : A.own name' storage (.global (naming.globalSymbol name))) : name' = name := by
  rcases hA.slots _ _ _ h with ⟨r, hr, -⟩ | ⟨-, hglobal⟩
  · simp [Value.reg, Value.global] at hr
  · exact (globalSymbol_injective naming (by simpa [Value.global] using hglobal)).symm

theorem Access.Fits.boxed_entry (hfits : A.Fits ctx .single s)
    (hA : A.Keeps ctx.naming s.builder.func)
    (hwithin : A.Within .single (assignedAll statements)) (htop : A.scope = .topLevel)
    (name : String) :
    (∃ storage, A.Cell storage (.global (ctx.naming.globalSymbol name)) ∧
      storage.isTracked = true) ↔ IsBoxed s.globals name := by
  rw [← Access.own_of_topLevel (hfits.scope.symm.trans htop)]
  constructor
  · rintro ⟨storage, hcell, htracked⟩
    generalize hslot : Value.global (ctx.naming.globalSymbol name) = slot at hcell
    cases hcell with
    | outer houter =>
      have hscope := (hA.outer _ _ houter).1
      simp [htop] at hscope
    | @own name' _ _ hown =>
      subst hslot
      obtain rfl := hA.eq_of_own hown
      obtain ⟨b, hb⟩ := hfits.bound _ _ _ hown
      have hown' := hfits.own _ b hb
      -- A name has one slot, and a slot has one storage class.
      have hslot := hwithin.single rfl _ _ _ _ _ hown' hown
      have hstorage := (hA.apart _ _ _ _ _ hown (hslot ▸ hown')).2
      exact ⟨b, hb, isModuleLevel_of_global hslot, hstorage ▸ htracked⟩
  · rintro ⟨b, hb, hmodule, htracked⟩
    have hown := hfits.own _ b hb
    rcases hA.slots _ _ _ hown with ⟨r, hr, -⟩ | ⟨-, hglobal⟩
    · simp [Binding.isModuleLevel, hr, Value.reg?, Value.reg] at hmodule
    · exact ⟨b.storage, .own (hglobal ▸ hown), htracked⟩

theorem Access.Fits.boxed_body {D : Rules} (hfits : A.Fits ctx D s)
    (hread : ∀ bound name, D.mayRead bound name = true) (hA : A.Keeps ctx.naming s.builder.func)
    (hscope : A.scope = .function) (name : String) :
    (∃ storage, A.Cell storage (.global (ctx.naming.globalSymbol name)) ∧
      storage.isTracked = true) ↔ IsBoxed s.globals name := by
  constructor
  · rintro ⟨storage, hcell, htracked⟩
    generalize hslot : Value.global (ctx.naming.globalSymbol name) = slot at hcell
    cases hcell with
    | own hown =>
      rcases hA.slots _ _ _ hown with ⟨r, rfl, -⟩ | ⟨htop, -⟩
      · simp [Value.reg, Value.global] at hslot
      · simp [hscope] at htop
    | outer houter =>
      rw [(hA.outer _ _ houter).2] at hslot
      have hsymbol := globalSymbol_injective ctx.naming (by simpa [Value.global] using hslot)
      subst hsymbol
      obtain ⟨hb, hmodule⟩ := hfits.reaches _ _ houter
      exact ⟨_, hb, hmodule, htracked⟩
  · rintro ⟨b, hb, hmodule, htracked⟩
    have houter := hfits.outer (hfits.scope.symm.trans hscope) _ b hb hmodule
    have hfree := (hfits.free [] name (hread [] name) List.not_mem_nil).1
    exact ⟨b.storage, (hA.outer _ _ houter).2 ▸ .outer houter hfree, htracked⟩

end

/-- Records exist before they are used: whatever branches a run takes, what it passes to a function
of the runtime that takes a boxed record is a record that was made or initialized earlier in the run,
or that was in a variable at top level when the run began, unless it was read from a
variable to which nothing had been assigned. What the entry function keeps in variables at top level
is of the same kinds, and other functions leave these variables alone. -/
theorem generate_passesRecords {target : Target} {naming : Naming} {observed : List String}
    {statements : List Node} {u : Generated}
    (hu : generate target naming observed statements = .ok u)
    (hnames : ∀ name ∈ assignedAll statements, Dotless name) :
    ∃ s, entryFunction statements (Stage.contextOf target naming observed statements)
        (State.start target naming statements) = .ok ((), s) ∧
      ∀ (S : Surroundings) (φ₀ : Frame Past),
        (∀ name, ¬ S.elsewhere (naming.globalSymbol name)) →
        (∀ main ∈ u.assembly.functions.head?, φ₀.Begins main →
          PassesRecords naming s.globals .topLevel main S φ₀ ∧
            KeepsRecords naming s.globals .topLevel main S φ₀) ∧
        ∀ f ∈ u.assembly.functions.tail, φ₀.Begins f →
          PassesRecords naming s.globals .function f S φ₀ ∧
            LeavesGlobals f S φ₀ := by
  obtain ⟨s, done, hentry, hfunctions, -, hdone⟩ := generate_done rfl hu
  have hlinear := generate_linear hu
  rw [hfunctions] at hlinear ⊢
  refine ⟨s, hentry, fun S φ₀ hprivate => ⟨fun main hmain hbegin => ?_,
    fun f hf hbegin => ?_⟩⟩
  · obtain rfl := Option.some.inj hmain
    obtain ⟨A, htop, hkeeps, hwithin, hfits⟩ := entryFunction_spec hentry
    have hboxed := hfits.boxed_entry hkeeps hwithin htop
    have hsettled : A.Settled naming s.builder.func (IsBoxed s.globals) :=
      { keeps := hkeeps
        cells := hfits.cells hfits.confines
        reaches := fun hcell htracked => (hboxed _).mp ⟨_, hcell, htracked⟩
        top := fun _ name storage slot hown => hnames name (hwithin.names name storage slot hown) }
    have hf := hlinear _ List.mem_cons_self
    exact ⟨htop ▸ hsettled.passesRecords hboxed hf hprivate hbegin,
      htop ▸ hsettled.keepsRecords hboxed hf hprivate hbegin⟩
  · obtain ⟨p, hp, rfl⟩ := List.mem_map.mp hf
    obtain ⟨t, t', hbody, hfunc, hglobals⟩ := hdone p hp
    obtain ⟨A, hscope, hkeeps, -, hfits⟩ := hbody.spec (permits_unrestricted.keepsAll _ _)
      (by simp [Rules.unrestricted])
    rw [← hfunc] at hkeeps
    have hboxed := hfits.boxed_body (fun _ _ => rfl) (hfunc ▸ hkeeps) hscope
    rw [hglobals] at hboxed
    have hsettled : A.Settled naming p.2 (IsBoxed s.globals) :=
      { keeps := hkeeps
        cells := hfits.cells hfits.confines
        reaches := fun hcell htracked => (hboxed _).mp ⟨_, hcell, htracked⟩
        top := fun htop => by simp [hscope] at htop }
    have hf := hlinear _ (List.mem_cons_of_mem _ hf)
    exact ⟨hscope ▸ hsettled.passesRecords hboxed hf hprivate hbegin,
      hkeeps.leavesGlobals hscope hf hbegin⟩

/-! ## Runs -/

/-- The next instruction updates a record, which is the given datum. -/
def updates (d : Datum) (t : Machine.Traced Nat) : Bool :=
  match t.config.code with
  | .call none .void callee (v :: _) :: _ =>
    callee = Catalog.boxUpdate && v.ty = .ptr && t.config.frame.eval v = some d
  | _ => false

theorem exists_arises_updates {n : Nat} {d : Datum} {φ : Frame Nat} {f : Func}
    (h : runsTo n φ (updates d) f = true) :
    ∃ label v args rest φ', Arises Machine.alone f (Machine.withPast φ [])
      ⟨label, .call none .void Catalog.boxUpdate (v :: args) :: rest, φ'⟩ ∧
      v.ty = .ptr ∧ φ'.eval v = some d := by
  obtain ⟨⟨label, ⟨code, φ'⟩, past⟩, harises, ht⟩ := exists_arises h
  unfold updates at ht
  split at ht
  case h_2 => simp at ht
  case h_1 callee v args rest hcode =>
    obtain rfl : code = _ := hcode
    simp only [Bool.and_eq_true, decide_eq_true_eq] at ht
    obtain ⟨⟨rfl, hty⟩, hd⟩ := ht
    exact ⟨label, v, args, rest, _, harises, hty, hd⟩

/-- A program that assigns to an observed variable in a loop. -/
def assignedInLoop : List Node :=
  [.assignment "x" (.literal (.number .zero)),
    .loop (.binary "<" (.identifier "x") (.literal (.number .one)))
      [.assignment "x" (.binary "+" (.identifier "x") (.literal (.number .one)))]]

/-- The program runs to an update, in the second turn of the loop. -/
theorem passesRecords_assignedInLoop :
    ∃ u s main, generate (.resolve none) { mode := .program } ["x"] assignedInLoop = .ok u ∧
      (∀ name ∈ assignedAll assignedInLoop, Dotless name) ∧
      entryFunction assignedInLoop
        (Stage.contextOf (.resolve none) { mode := .program } ["x"] assignedInLoop)
        (State.start (.resolve none) { mode := .program } assignedInLoop) = .ok ((), s) ∧
      u.assembly.functions.head? = some main ∧
      (Machine.withPast (beginning [] noRecord) []).Begins main ∧
      (∃ label v args rest φ,
        Arises Machine.alone main (Machine.withPast (beginning [] noRecord) [])
          ⟨label, .call none .void Catalog.boxUpdate (v :: args) :: rest, φ⟩ ∧
        φ.eval v = some (.address (.heap 0))) ∧
      PassesRecords { mode := .program } s.globals .topLevel main Machine.alone
        (Machine.withPast (beginning [] noRecord) []) := by
  obtain ⟨u, hu, hrun⟩ := exists_generate (.resolve none) { mode := .program } ["x"] assignedInLoop
    (fun u => u.assembly.functions.head?.any
      (runsTo 22 (beginning [] noRecord) (updates (.address (.heap 0))))) (by decide +kernel)
  obtain ⟨main, hmain, hrun⟩ := (Option.any_eq_true _ _).mp hrun
  obtain ⟨label, v, args, rest, φ, harises, -, hd⟩ := exists_arises_updates hrun
  have hnames : ∀ name ∈ assignedAll assignedInLoop, Dotless name := by
    unfold Dotless
    decide
  have hbegin : (Machine.withPast (beginning [] noRecord) []).Begins main :=
    begins_beginning (List.nil_subset _) (by simp)
  obtain ⟨s, hs, hpasses⟩ := generate_passesRecords hu hnames
  exact ⟨u, s, main, hu, hnames, hs, hmain, hbegin, ⟨label, v, args, rest, φ, harises, hd⟩,
    ((hpasses Machine.alone _ fun _ => id).1 main hmain hbegin).1⟩

/-- A program that assigns to an observed variable in both branches, and reads none. -/
def assignedInBranches : List Node :=
  [.conditional (.literal (.number .zero)) [.assignment "x" (.literal (.number .one))]
    [.assignment "x" (.literal (.number ⟨0x4000000000000000⟩))]]

/-- The second branch updates the record that only the first one makes. -/
theorem updatesNull_assignedInBranches :
    Node.readsAll assignedInBranches = [] ∧
    ∃ u main, generate (.resolve none) { mode := .program } ["x"] assignedInBranches = .ok u ∧
      u.assembly.functions.head? = some main ∧
      (Machine.withPast (beginning [] noRecord) []).Begins main ∧
      ∃ label v args rest φ,
        Arises Machine.alone main (Machine.withPast (beginning [] noRecord) [])
          ⟨label, .call none .void Catalog.boxUpdate (v :: args) :: rest, φ⟩ ∧
        φ.eval v = some noRecord := by
  obtain ⟨u, hu, hrun⟩ := exists_generate (.resolve none) { mode := .program } ["x"]
    assignedInBranches (fun u => u.assembly.functions.head?.any
      (runsTo 3 (beginning [] noRecord) (updates noRecord))) (by decide +kernel)
  obtain ⟨main, hmain, hrun⟩ := (Option.any_eq_true _ _).mp hrun
  obtain ⟨label, v, args, rest, φ, harises, -, hd⟩ := exists_arises_updates hrun
  exact ⟨by decide, u, main, hu, hmain, begins_beginning (List.nil_subset _) (by simp), label, v, args,
    rest, φ, harises, hd⟩

end ScriptCompiler.Lowering
